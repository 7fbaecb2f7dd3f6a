import Mathlib.Logic.Relation

/-! Systems that go from state to state until they stop.

A transition either goes on to one state or stops with one result, so a run has no choice. What is
shown of some transitions from a state therefore says what every run from that state does: it passes
there, it stops there, or it goes on for as long (`Halts.after`, `Halts.bounded`). A system
whose transitions are each some transitions of another one halts exactly where the other does
(`halts_iff_of_coarser`), and shows on the way, also on a way without an end, whatever lasts of what
the other shows (`shows_iff_of_coarser`). A count comes to exceed a bound in one transition
(`crosses_of_leads`), and up to there a system with a limit does what it does without one
(`Limited`). A measure that falls in every transition bounds the transitions that there are
(`Falls.exists_run`), and one that falls by one counts them (`Halts.run_eq`). A run that stops can
be tested, and what all its states pass holds wherever the run comes to (`of_tested`). -/
namespace TapeLang.Course
open Relation (ReflTransGen TransGen)
variable {σ ε : Type} (step : σ → σ ⊕ ε)

def Goes (s s' : σ) : Prop := step s = .inl s'

abbrev Leads : σ → σ → Prop := ReflTransGen (Goes step)

/-- The run from a state stops with a result. -/
def Halts (s : σ) (e : ε) : Prop := ∃ last, Leads step s last ∧ step last = .inr e

/-- A run of at most `fuel` transitions, the last one included. -/
def run : Nat → σ → Option ε
  | 0, _ => none
  | fuel + 1, s =>
    match step s with
    | .inl s => run fuel s
    | .inr e => some e

variable {step} {s s' : σ} {e e' : ε}

theorem Halts.stop (h : step s = .inr e) : Halts step s e := ⟨s, .refl, h⟩

theorem Halts.before (leads : Leads step s s') (h : Halts step s' e) : Halts step s e := by
  obtain ⟨last, after, stop⟩ := h
  exact ⟨last, leads.trans after, stop⟩

theorem goes_unique : Relator.RightUnique (Goes step) :=
  fun _ _ _ h h' => Sum.inl.inj (h.symm.trans h')

/-- A state that stops leads nowhere else. -/
theorem eq_of_leads_of_stop (stop : step s = .inr e) (leads : Leads step s s') : s' = s := by
  rcases leads.cases_head with rfl | ⟨next, goes, -⟩
  · rfl
  · exact nomatch goes.symm.trans stop

/-- What a state leads to is itself, or the next state leads to it. -/
theorem eq_or_leads_of_goes {next : σ} (goes : step s = .inl next) (leads : Leads step s s') :
    s' = s ∨ Leads step next s' := by
  rcases leads.cases_head with rfl | ⟨next', goes', leads⟩
  · exact .inl rfl
  · cases goes_unique goes goes'
    exact .inr leads

/-- A run that stops passes through every state it is led to. -/
theorem Halts.after (h : Halts step s e) (leads : Leads step s s') : Halts step s' e := by
  obtain ⟨last, before, stop⟩ := h
  rcases before.total_of_right_unique goes_unique leads with h | h
  · cases eq_of_leads_of_stop stop h
    exact .stop stop
  · exact ⟨last, h, stop⟩

theorem Halts.unique (h : Halts step s e) (h' : Halts step s e') : e = e' := by
  obtain ⟨last, leads, stop⟩ := h
  obtain ⟨last', leads', stop'⟩ := h'.after leads
  cases eq_of_leads_of_stop stop leads'
  exact Sum.inr.inj (stop.symm.trans stop')

/-- What no transition changes is what the run stops with. -/
theorem Halts.view_eq {ρ : Type} {view : σ → ρ} {total : ε → ρ}
    (keeps : ∀ s, view s = (step s).elim view total) (h : Halts step s e) : view s = total e := by
  obtain ⟨last, leads, stop⟩ := h
  induction leads using ReflTransGen.head_induction_on with
  | refl => rw [keeps, stop, Sum.elim_inr]
  | @head s next goes _ ih => rw [keeps, show step s = .inl next from goes, Sum.elim_inl, ih]

/-- Whatever is counted along a run that stops is bounded. -/
theorem Halts.bounded (h : Halts step s e) (count : σ → Nat) :
    ∃ bound, ∀ s', Leads step s s' → count s' ≤ bound := by
  obtain ⟨last, leads, stop⟩ := h
  induction leads using ReflTransGen.head_induction_on with
  | refl =>
    exact ⟨count last, fun s' hs' => Nat.le_of_eq (congrArg count (eq_of_leads_of_stop stop hs'))⟩
  | @head s next goes _ ih =>
    obtain ⟨bound, hbound⟩ := ih
    refine ⟨max (count s) bound, fun s' hs' => ?_⟩
    rcases hs'.cases_head with rfl | ⟨next', goes', hs'⟩
    · exact Nat.le_max_left _ _
    · cases goes_unique goes goes'
      exact Nat.le_trans (hbound s' hs') (Nat.le_max_right _ _)

/-! ### Runs with fuel -/

theorem halts_of_run {fuel : Nat} (h : run step fuel s = some e) : Halts step s e := by
  induction fuel generalizing s with
  | zero => exact nomatch h
  | succ fuel ih =>
    cases hs : step s with
    | inl next =>
      rw [run, hs] at h
      exact (ih h).before (.single hs)
    | inr e' =>
      rw [run, hs] at h
      cases h
      exact .stop hs

theorem run_of_halts (h : Halts step s e) : ∃ fuel, run step fuel s = some e := by
  obtain ⟨last, leads, stop⟩ := h
  induction leads using ReflTransGen.head_induction_on with
  | refl => exact ⟨1, by rw [run, stop]⟩
  | @head s next goes _ ih =>
    obtain ⟨fuel, hfuel⟩ := ih
    exact ⟨fuel + 1, by rw [run, show step s = .inl next from goes]; exact hfuel⟩

theorem exists_run_iff : (∃ fuel, run step fuel s = some e) ↔ Halts step s e :=
  ⟨fun ⟨_, h⟩ => halts_of_run h, run_of_halts⟩

/-- More fuel changes no result. -/
theorem run_of_le {fuel fuel' : Nat} (le : fuel ≤ fuel') (h : run step fuel s = some e) :
    run step fuel' s = some e := by
  induction fuel generalizing fuel' s with
  | zero => exact nomatch h
  | succ fuel ih =>
    obtain ⟨fuel', rfl⟩ : ∃ k, fuel' = k + 1 := ⟨fuel' - 1, by omega⟩
    cases hs : step s with
    | inl next =>
      rw [run, hs] at h ⊢
      exact ih (by omega) h
    | inr e' =>
      rw [run, hs] at h ⊢
      exact h

/-- What more fuel does not change is settled from some fuel on, and not before. -/
theorem settled_of_mono {ρ : Type} {result : Nat → Option ρ}
    (mono : ∀ {fuel fuel' r}, fuel ≤ fuel' → result fuel = some r → result fuel' = some r)
    {fuel : Nat} {r : ρ} (h : result fuel = some r) :
    ∃ bound, ∀ fuel, result fuel = if fuel < bound then none else some r := by
  induction fuel with
  | zero =>
    refine ⟨0, fun fuel => ?_⟩
    rw [if_neg (Nat.not_lt_zero _)]
    exact mono (Nat.zero_le _) h
  | succ n ih =>
    by_cases earlier : result n = some r
    · exact ih earlier
    refine ⟨n + 1, fun fuel => ?_⟩
    by_cases less : fuel < n + 1
    · rw [if_pos less]
      cases hr : result fuel with
      | none => rfl
      | some r' =>
        cases (mono (Nat.le_of_lt less) hr).symm.trans h
        exact absurd (mono (Nat.le_of_lt_succ less) hr) earlier
    · rw [if_neg less]
      exact mono (Nat.le_of_not_lt less) h

/-- A computation with fuel has a result from some fuel on, and none before. -/
def Settles {ρ : Type} (result : Nat → Option ρ) (r : ρ) : Prop :=
  ∃ bound, ∀ fuel, result fuel = if fuel < bound then none else some r

theorem Settles.exists_fuel {ρ : Type} {result : Nat → Option ρ} {r : ρ}
    (h : Settles result r) : ∃ fuel, result fuel = some r := by
  obtain ⟨bound, h⟩ := h
  exact ⟨bound, (h bound).trans (if_neg (Nat.lt_irrefl _))⟩

/-- A run that stops settles, whatever is looked at of what it stops with. -/
theorem Halts.settles {ρ : Type} (h : Halts step s e) (view : ε → ρ) :
    Settles (fun fuel => (run step fuel s).map view) (view e) := by
  obtain ⟨fuel, hfuel⟩ := run_of_halts h
  refine settled_of_mono (fun le hr => ?_) (show (run step fuel s).map view = some (view e) by
    rw [hfuel, Option.map_some])
  obtain ⟨e', hrun, rfl⟩ := Option.map_eq_some_iff.1 hr
  rw [run_of_le le hrun, Option.map_some]

theorem Halts.settled (h : Halts step s e) : Settles (fun fuel => run step fuel s) e := by
  simpa only [Option.map_id, id_eq] using h.settles id

/-! ### Tests along a run -/

/-- Whether all states of a run pass a test, the last one included, which is looked for in a number
of transitions. -/
def tested (step : σ → σ ⊕ ε) (test : σ → Bool) : Nat → σ → Bool
  | 0, _ => false
  | fuel + 1, s =>
    test s &&
      match step s with
      | .inl next => tested step test fuel next
      | .inr _ => true

/-- Testing a run settles what its states are, however they are reached. -/
theorem of_tested {test : σ → Bool} {fuel : Nat} (h : tested step test fuel s = true)
    (leads : Leads step s s') : test s' = true := by
  induction fuel generalizing s with
  | zero => cases h
  | succ fuel ih =>
    rw [tested, Bool.and_eq_true] at h
    obtain ⟨here, ahead⟩ := h
    cases hs : step s with
    | inr e =>
      cases eq_of_leads_of_stop hs leads
      exact here
    | inl next =>
      rw [hs] at ahead
      rcases eq_or_leads_of_goes hs leads with rfl | leads
      · exact here
      · exact ih ahead leads

/-! ### Coarser transitions -/

/-- A run that stops cannot go on forever. -/
theorem Halts.acc (h : Halts step s e) : Acc (fun next s => Goes step s next) s := by
  obtain ⟨last, leads, stop⟩ := h
  induction leads using ReflTransGen.head_induction_on with
  | refl =>
    refine ⟨_, fun next goes => ?_⟩
    exact nomatch (show step last = .inl next from goes).symm.trans stop
  | head goes _ ih =>
    refine ⟨_, fun next goes' => ?_⟩
    cases goes_unique goes goes'
    exact ih

theorem leads_of_coarser {coarse fine : σ → σ ⊕ ε}
    (goes : ∀ s s', coarse s = .inl s' → TransGen (Goes fine) s s') (leads : Leads coarse s s') :
    Leads fine s s' := by
  induction leads with
  | refl => exact .refl
  | tail _ next ih => exact ih.trans (goes _ _ next).to_reflTransGen

/-- A system that takes one or more transitions of another one at a time halts where it does. -/
theorem halts_iff_of_coarser {coarse fine : σ → σ ⊕ ε}
    (goes : ∀ s s', coarse s = .inl s' → TransGen (Goes fine) s s')
    (stops : ∀ s e, coarse s = .inr e → Halts fine s e) :
    Halts coarse s e ↔ Halts fine s e := by
  constructor
  · rintro ⟨last, leads, stop⟩
    induction leads using ReflTransGen.head_induction_on with
    | refl => exact stops last e stop
    | head next _ ih => exact ih.before (goes _ _ next).to_reflTransGen
  · intro h
    -- Each coarse transition makes progress in the fine system, where the run is finite.
    have finite := h.acc.transGen
    induction finite with
    | intro s _ ih =>
      cases hs : coarse s with
      | inl next =>
        have progress := goes s next hs
        have rest := ih next (Relation.transGen_swap.2 progress) (h.after progress.to_reflTransGen)
        exact rest.before (.single hs)
      | inr e' =>
        cases h.unique (stops s e' hs)
        exact .stop hs

/-- A state that a run passes through is passed, or left behind, by what takes several of its
transitions at a time. -/
theorem passes_of_coarser {coarse fine : σ → σ ⊕ ε}
    (goes : ∀ s s', coarse s = .inl s' → TransGen (Goes fine) s s')
    (stops : ∀ s e, coarse s = .inr e → Halts fine s e) (leads : Leads fine s s') :
    (∃ t, Leads coarse s t ∧ Leads fine s' t) ∨ ∃ e, Halts coarse s e ∧ Halts fine s' e := by
  -- A coarse transition may go past the next state, so this is shown of all states on the way.
  suffices h : ∀ t, Leads fine s t → Leads fine t s' →
      (∃ u, Leads coarse t u ∧ Leads fine s' u) ∨ ∃ e, Halts coarse t e ∧ Halts fine s' e from
    h s .refl leads
  induction leads using ReflTransGen.head_induction_on with
  | refl => exact fun t before _ => .inl ⟨t, .refl, before⟩
  | @head s next first _ ih =>
    intro t before after
    rcases before.cases_head with rfl | ⟨next', first', before⟩
    · cases hs : coarse s with
      | inr e => exact .inr ⟨e, .stop hs, (stops s e hs).after after⟩
      | inl far =>
        have jump := goes s far hs
        rcases jump.to_reflTransGen.total_of_right_unique goes_unique after with short | past
        · obtain ⟨next', first', rest⟩ := TransGen.head'_iff.1 jump
          cases goes_unique first first'
          rcases ih far rest short with ⟨u, there, after⟩ | ⟨e, halts, after⟩
          · exact .inl ⟨u, there.head hs, after⟩
          · exact .inr ⟨e, halts.before (.single hs), after⟩
        · exact .inl ⟨far, .single hs, past⟩
    · cases goes_unique first first'
      exact ih t before after

/-! ### What a run shows -/

/-- The state after a number of transitions. A run that has stopped stays at the state that it has
left with its result. -/
def after (step : σ → σ ⊕ ε) (left : ε → σ) : Nat → σ → σ
  | 0, s => s
  | n + 1, s =>
    match step s with
    | .inl s => after step left n s
    | .inr e => left e

/-- Once shown it stays: transitions and stops keep a property of states. -/
structure Lasts (step : σ → σ ⊕ ε) (left : ε → σ) (P : σ → Prop) : Prop where
  goes : ∀ {s s'}, step s = .inl s' → P s → P s'
  stops : ∀ {s e}, step s = .inr e → P s → P (left e)

/-- A run comes to a state with a property. -/
def Shows (step : σ → σ ⊕ ε) (left : ε → σ) (P : σ → Prop) (s : σ) : Prop :=
  ∃ n, P (after step left n s)

section
variable {left : ε → σ} {P Q : σ → Prop}

theorem Lasts.ahead (lasts : Lasts step left P) (leads : Leads step s s') (h : P s) : P s' := by
  induction leads with
  | refl => exact h
  | tail _ goes ih => exact lasts.goes goes ih

theorem Lasts.result (lasts : Lasts step left P) (halts : Halts step s e) (h : P s) :
    P (left e) := by
  obtain ⟨last, leads, stop⟩ := halts
  exact lasts.stops stop (lasts.ahead leads h)

theorem Lasts.later (lasts : Lasts step left P) {n n' : Nat} (le : n ≤ n')
    (h : P (after step left n s)) : P (after step left n' s) := by
  induction n generalizing n' s with
  | zero =>
    clear le
    induction n' generalizing s with
    | zero => exact h
    | succ n' ih =>
      cases hs : step s with
      | inl next =>
        simp only [after, hs]
        exact ih (lasts.goes hs h)
      | inr e =>
        simp only [after, hs]
        exact lasts.stops hs h
  | succ n ih =>
    obtain ⟨n', rfl⟩ : ∃ k, n' = k + 1 := ⟨n' - 1, by omega⟩
    cases hs : step s with
    | inl next =>
      simp only [after, hs] at h ⊢
      exact ih (by omega) h
    | inr e =>
      simp only [after, hs] at h ⊢
      exact h

/-- What a run shows that lasts, it shows together. -/
theorem Shows.both (lastsP : Lasts step left P) (lastsQ : Lasts step left Q)
    (hP : Shows step left P s) (hQ : Shows step left Q s) : ∃ s, P s ∧ Q s := by
  obtain ⟨n, hP⟩ := hP
  obtain ⟨k, hQ⟩ := hQ
  exact ⟨_, lastsP.later (Nat.le_max_left n k) hP, lastsQ.later (Nat.le_max_right n k) hQ⟩

theorem Shows.of_leads (leads : Leads step s s') (h : P s') : Shows step left P s := by
  induction leads using ReflTransGen.head_induction_on with
  | refl => exact ⟨0, h⟩
  | @head s next goes _ ih =>
    obtain ⟨n, hn⟩ := ih
    exact ⟨n + 1, by rw [after, show step s = .inl next from goes]; exact hn⟩

theorem Shows.of_halts (halts : Halts step s e) (h : P (left e)) : Shows step left P s := by
  obtain ⟨last, leads, stop⟩ := halts
  induction leads using ReflTransGen.head_induction_on with
  | refl => exact ⟨1, by rw [after, stop]; exact h⟩
  | @head s next goes _ ih =>
    obtain ⟨n, hn⟩ := ih
    exact ⟨n + 1, by rw [after, show step s = .inl next from goes]; exact hn⟩

/-- What is shown is shown at a state that the run passes through, or at the one it leaves. -/
theorem Shows.passed (h : Shows step left P s) :
    (∃ s', Leads step s s' ∧ P s') ∨ ∃ e, Halts step s e ∧ P (left e) := by
  obtain ⟨n, hn⟩ := h
  induction n generalizing s with
  | zero => exact .inl ⟨s, .refl, hn⟩
  | succ n ih =>
    cases hs : step s with
    | inl next =>
      simp only [after, hs] at hn
      rcases ih hn with ⟨s', leads, h⟩ | ⟨e, halts, h⟩
      · exact .inl ⟨s', leads.head hs, h⟩
      · exact .inr ⟨e, halts.before (.single hs), h⟩
    | inr e =>
      simp only [after, hs] at hn
      exact .inr ⟨e, .stop hs, hn⟩

/-- What stopping does not bring about is shown at a state that the run passes through. -/
theorem Shows.passed_of_quiet (h : Shows step left P s)
    (quiet : ∀ s e, step s = .inr e → P (left e) → P s) : ∃ s', Leads step s s' ∧ P s' := by
  rcases h.passed with passed | ⟨e, ⟨last, leads, stop⟩, here⟩
  · exact passed
  · exact ⟨last, leads, quiet last e stop here⟩

/-- What lasts is shown by a run that stops exactly if it is so where the run is left. -/
theorem Lasts.shows_iff (lasts : Lasts step left P) (halts : Halts step s e) :
    Shows step left P s ↔ P (left e) := by
  refine ⟨fun shown => ?_, Shows.of_halts halts⟩
  rcases shown.passed with ⟨s', leads, here⟩ | ⟨e', halts', here⟩
  · exact lasts.result (halts.after leads) here
  · rwa [halts.unique halts']

/-- **What lasts is shown by a run exactly if one shows it that takes several of its transitions at
a time.** -/
theorem shows_iff_of_coarser {coarse fine : σ → σ ⊕ ε} (lasts : Lasts fine left P)
    (goes : ∀ s s', coarse s = .inl s' → TransGen (Goes fine) s s')
    (stops : ∀ s e, coarse s = .inr e → Halts fine s e) :
    Shows coarse left P s ↔ Shows fine left P s := by
  constructor
  · intro h
    rcases h.passed with ⟨s', leads, here⟩ | ⟨e, halts, here⟩
    · exact .of_leads (leads_of_coarser goes leads) here
    · exact .of_halts ((halts_iff_of_coarser goes stops).1 halts) here
  · intro h
    rcases h.passed with ⟨s', leads, here⟩ | ⟨e, halts, here⟩
    · rcases passes_of_coarser goes stops leads with ⟨t, there, beyond⟩ | ⟨e, halts, after⟩
      · exact .of_leads there (lasts.ahead beyond here)
      · exact .of_halts halts (lasts.result after here)
    · exact .of_halts ((halts_iff_of_coarser goes stops).2 halts) here

end

/-! ### Counts -/

/-- What is counted of states and results does not fall in a transition or a stop. -/
def Rises (step : σ → σ ⊕ ε) (count : σ → Nat) (total : ε → Nat) : Prop :=
  ∀ s, count s ≤ (step s).elim count total

/-- A run passes through a state where a number more is counted than at its start. -/
def Passes (step : σ → σ ⊕ ε) (count : σ → Nat) (s : σ) (n : Nat) (s' : σ) : Prop :=
  Leads step s s' ∧ count s' = count s + n

section
variable {count : σ → Nat} {total : ε → Nat} {bound : Nat}

theorem Rises.le_of_goes (rises : Rises step count total) (goes : Goes step s s') :
    count s ≤ count s' := by
  have rise := rises s
  rwa [show step s = .inl s' from goes] at rise

theorem Rises.le_of_leads (rises : Rises step count total) (leads : Leads step s s') :
    count s ≤ count s' := by
  induction leads with
  | refl => exact Nat.le_refl _
  | tail _ goes ih => exact Nat.le_trans ih (rises.le_of_goes goes)

/-- What the next transition counts, the result counts. -/
theorem Rises.le_of_halts (rises : Rises step count total) (halts : Halts step s e) :
    (step s).elim count total ≤ total e := by
  obtain ⟨last, leads, stop⟩ := halts
  rcases leads.cases_head with rfl | ⟨next, goes, rest⟩
  · exact Nat.le_of_eq (by rw [stop]; rfl)
  · have rise := rises last
    rw [stop] at rise
    rw [show step s = .inl next from goes]
    exact Nat.le_trans (rises.le_of_leads rest) rise

variable (total) in
/-- A count that comes to exceed a bound does so in some transition. -/
theorem crosses_of_leads (leads : Leads step s s') (le : count s ≤ bound)
    (gt : bound < count s') :
    ∃ last, Leads step s last ∧ count last ≤ bound ∧ bound < (step last).elim count total := by
  induction leads using ReflTransGen.head_induction_on with
  | refl => omega
  | @head s next goes _ ih =>
    by_cases inside : count next ≤ bound
    · obtain ⟨last, leads, crossing⟩ := ih inside
      exact ⟨last, leads.head goes, crossing⟩
    · refine ⟨s, .refl, le, ?_⟩
      rw [show step s = .inl next from goes]
      exact Nat.lt_of_not_le inside

theorem crosses_of_halts (halts : Halts step s e) (le : count s ≤ bound) (gt : bound < total e) :
    ∃ last, Leads step s last ∧ count last ≤ bound ∧ bound < (step last).elim count total := by
  obtain ⟨last, leads, stop⟩ := halts
  by_cases inside : count last ≤ bound
  · exact ⟨last, leads, inside, by rwa [stop]⟩
  · exact crosses_of_leads total leads le (Nat.lt_of_not_le inside)

/-- What changes in no transition that counts nothing is the same in all states of a run that
have counted as much. -/
theorem Rises.view_eq {ρ : Type} {view : σ → ρ} (rises : Rises step count total)
    (keeps : ∀ {s s'}, step s = .inl s' → count s' = count s → view s' = view s) {t : σ}
    (leads : Leads step s s') (leads' : Leads step s t) (same : count s' = count t) :
    view s' = view t := by
  have ahead : ∀ {a b}, Leads step a b → count b = count a → view b = view a := by
    intro a b leads same
    induction leads with
    | refl => rfl
    | tail before goes ih =>
      have low := rises.le_of_leads before
      have high := rises.le_of_goes goes
      rw [keeps goes (by omega), ih (by omega)]
  rcases leads.total_of_right_unique goes_unique leads' with h | h
  · exact (ahead h same.symm).symm
  · exact ahead h same

end

/-! ### Limits -/

/-- What counts along a run does not exceed a bound, or a limited system stops for that. As long as
the count stays within the bound the limited system does what the free one does. -/
structure Limited (limited free : σ → σ ⊕ ε) (count : σ → Nat) (total : ε → Nat) (bound : Nat)
    (exceeds : ε → Prop) : Prop where
  rises : ∀ s, count s ≤ (free s).elim count total
  within : ∀ {s}, (free s).elim count total ≤ bound → limited s = free s
  beyond : ∀ {s}, count s ≤ bound → bound < (free s).elim count total →
    ∃ e, Halts limited s e ∧ exceeds e

namespace Limited
variable {limited free : σ → σ ⊕ ε} {count : σ → Nat} {total : ε → Nat} {bound : Nat}
  {exceeds : ε → Prop} (h : Limited limited free count total bound exceeds)
include h

theorem goes (goes : Goes free s s') (le : count s' ≤ bound) : Goes limited s s' := by
  have same : limited s = free s := h.within (by rwa [show free s = .inl s' from goes])
  exact same.trans goes

theorem leads (leads : Leads free s s') (le : count s' ≤ bound) : Leads limited s s' := by
  induction leads with
  | refl => exact .refl
  | tail _ last ih =>
    have rise := Rises.le_of_goes h.rises last
    exact (ih (Nat.le_trans rise le)).tail (h.goes last le)

theorem halts (halts : Halts free s e) (le : total e ≤ bound) : Halts limited s e := by
  obtain ⟨last, leads, stop⟩ := halts
  have rise := h.rises last
  rw [stop] at rise
  have same : limited last = free last := h.within (by rwa [stop])
  exact ⟨last, h.leads leads (Nat.le_trans rise le), same.trans stop⟩

/-- The limited system stops in the transition in which the free one comes to exceed the bound. -/
theorem over_of_crossing {last : σ} (leads : Leads free s last) (le : count last ≤ bound)
    (gt : bound < (free last).elim count total) : ∃ e, Halts limited s e ∧ exceeds e := by
  obtain ⟨e, halts, exceeded⟩ := h.beyond le gt
  exact ⟨e, halts.before (h.leads leads le), exceeded⟩

theorem over_of_leads (leads : Leads free s s') (le : count s ≤ bound) (gt : bound < count s') :
    ∃ e, Halts limited s e ∧ exceeds e := by
  obtain ⟨last, leads, le, gt⟩ := crosses_of_leads total leads le gt
  exact h.over_of_crossing leads le gt

theorem over_of_halts (halts : Halts free s e) (le : count s ≤ bound) (gt : bound < total e) :
    ∃ e, Halts limited s e ∧ exceeds e := by
  obtain ⟨last, leads, le, gt⟩ := crosses_of_halts halts le gt
  exact h.over_of_crossing leads le gt

end Limited

/-! ### Measures -/

/-- What is measured of a state falls in every transition of the run from a state. -/
def Falls (step : σ → σ ⊕ ε) (measure : σ → Nat) (s : σ) : Prop :=
  ∀ t t', Leads step s t → Goes step t t' → measure t' < measure t

section
variable {measure : σ → Nat}

/-- A run whose measure falls stops, after no more transitions than are measured of its start. -/
theorem Falls.exists_run (falls : Falls step measure s) {fuel : Nat} (enough : measure s < fuel) :
    ∃ e, run step fuel s = some e := by
  induction fuel generalizing s with
  | zero => exact absurd enough (Nat.not_lt_zero _)
  | succ fuel ih =>
    cases hs : step s with
    | inr e => exact ⟨e, by rw [run, hs]⟩
    | inl next =>
      have less := falls s next .refl hs
      obtain ⟨e, ran⟩ := ih (fun t t' leads => falls t t' (leads.head hs)) (by omega)
      exact ⟨e, by rw [run, hs]; exact ran⟩

theorem Falls.lt_of_progress {t t' : σ} (falls : Falls step measure s) (leads : Leads step s t)
    (progress : TransGen (Goes step) t t') : measure t' < measure t := by
  induction progress with
  | single goes => exact falls _ _ leads goes
  | tail before goes ih =>
    exact Nat.lt_trans (falls _ _ (leads.trans before.to_reflTransGen) goes) ih

/-- What falls in every transition falls in several of them taken at a time. -/
theorem Falls.coarser {coarse fine : σ → σ ⊕ ε} (falls : Falls fine measure s)
    (goes : ∀ s s', coarse s = .inl s' → TransGen (Goes fine) s s') : Falls coarse measure s :=
  fun t t' leads next => falls.lt_of_progress (leads_of_coarser goes leads) (goes t t' next)

/-- With more fuel than is measured of its start a run has the one result that it has. -/
theorem Falls.exists_result (falls : Falls step measure s) :
    ∃ e, Halts step s e ∧ ∀ fuel, measure s < fuel → run step fuel s = some e := by
  obtain ⟨e, ran⟩ := falls.exists_run (Nat.lt_succ_self (measure s))
  exact ⟨e, halts_of_run ran, fun fuel enough => run_of_le enough ran⟩

/-- A measure that falls by one in every transition, and has come to nothing where a run stops,
counts the transitions in front of the last one. -/
theorem Halts.run_eq
    (counts : ∀ s, measure s = (step s).elim (fun next => measure next + 1) fun _ => 0)
    (h : Halts step s e) (fuel : Nat) :
    run step fuel s = if fuel ≤ measure s then none else some e := by
  induction fuel generalizing s with
  | zero => rw [run, if_pos (Nat.zero_le _)]
  | succ fuel ih =>
    have left := counts s
    cases hs : step s with
    | inl next =>
      rw [hs, Sum.elim_inl] at left
      simp only [run, hs, left, ih (h.after (.single hs)), Nat.succ_le_succ_iff]
    | inr e' =>
      rw [hs, Sum.elim_inr] at left
      have ran : run step (fuel + 1) s = some e' := by rw [run, hs]
      rw [ran, Halts.unique (.stop hs) h, left, if_neg (Nat.not_succ_le_zero fuel)]

end

end TapeLang.Course
