import TapeLang.Proofs.BatchSizes
import TapeLang.Proofs.Cuts

/-! Runs of flat code that resume under other limits.

A run in batches that is stopped by a limit stands on the way of the run without one, just where one
step too many has been counted, and a further call goes on from there. So whatever the limits of a
sequence of calls, and in whatever order, after them the runner stands where the largest one is
exceeded (`Runner.ceiling`), or where the run without a limit stops before that (`Runner.Stands`):
no call takes a step twice and none leaves one out (`Runner.calls_resume`). What a cell that is made
stored costs is no step, so states with as many steps may differ in how much of the tape is stored,
but they show the same (`Runner.picture`). -/
namespace TapeLang.Runner
open Course (Leads Halts Settles)

variable {f : Flat} {policy : EndOfInput} {batchSteps : Int} {r r' start : Runner}

/-- The steps at which the largest of some limits is exceeded, none if all are below zero. -/
def ceiling : List Int → Nat
  | [] => 0
  | limit :: limits => max (limit + 1).toNat (ceiling limits)

/-- Calls with limits, each from where the one before it has stopped. -/
def calls (f : Flat) (policy : EndOfInput) (batchSteps : Int) (fuel : Nat) :
    List Int → Runner → Option (List Ran)
  | [], _ => some []
  | limit :: limits, r =>
    match batch fuel policy batchSteps (some limit) f r with
    | none => none
    | some ran => (calls f policy batchSteps fuel limits ran.runner).map (ran :: ·)

/-- No call is given a number that does not fit into a word. -/
def CallsFit (f : Flat) (policy : EndOfInput) (batchSteps : Int) : List Int → Runner → Prop
  | [], _ => True
  | limit :: limits, r =>
    r.misfit? batchSteps (some limit) = none ∧
      ∀ fuel ran, batch fuel policy batchSteps (some limit) f r = some ran →
        CallsFit f policy batchSteps limits ran.runner

/-- How many steps a run without a limit takes. A read that fails is not one of them. -/
noncomputable def total (f : Flat) (policy : EndOfInput) (batchSteps : Int) (r : Runner) : ℕ∞ :=
  Course.total (fun fuel => batch fuel policy batchSteps none f r) (·.steps - r.steps)

structure Picture where
  position : Int
  cursor : Int
  bytes : Int → UInt8
  unread : List UInt8
  written : Array UInt8

/-- What a runner shows, however much of its tape is stored. -/
def picture (r : Runner) : Picture where
  position := r.position
  cursor := r.machine.tape.cursor
  bytes := r.machine.tape.peek
  unread := r.machine.unread
  written := r.machine.written

/-! ### Slots -/

/-- What goes on has taken a step, or it has made stored the cell that is accessed. -/
theorem counted_or_grown (goes : advance f policy none r = .inl r') :
    r'.steps = r.steps + 1 ∨
      r' = ⟨r.machine.touch, r.position, r.steps⟩ ∧ f.Accesses r.position ∧
        ¬ (0 ≤ Batch.index r.machine.tape ∧ Batch.index r.machine.tape < r.machine.tape.size) := by
  by_cases past : (f.size : Int) ≤ r.position
  · exact nomatch (advance_past rfl past).symm.trans goes
  cases run : Batch.step f ⟨r.machine.tape, r.position, 0⟩ with
  | running b =>
    cases (advance_running rfl past run).symm.trans goes
    exact .inl (congrArg (r.steps + ·) (Batch.steps_of_running run))
  | stopped stop b =>
    have reason := Batch.stopsFor_of_step run
    have served := (advance_stopped rfl past run).symm.trans goes
    cases stop with
    | ended => cases served
    | astray => cases served
    | budget => exact reason.elim
    | output =>
      cases served
      exact .inl rfl
    | grow =>
      cases served
      exact .inr ⟨rfl, reason⟩
    | input =>
      rw [serve_input] at served
      cases read : r.machine.input policy with
      | ended m =>
        rw [read] at served
        cases served
        exact .inl rfl
      | exhausted m =>
        rw [read] at served
        cases served

theorem picture_of_uncounted (goes : advance f policy none r = .inl r')
    (same : r'.steps = r.steps) : r'.picture = r.picture := by
  rcases counted_or_grown goes with counted | ⟨rfl, -⟩
  · omega
  · have bytes : r.machine.touch.tape.peek = r.machine.tape.peek := funext r.machine.peek_touch
    simp only [picture, Machine.cursor_touch, bytes, r.machine.sameStreams_touch.1,
      r.machine.sameStreams_touch.2]

/-- Where the cell at the cursor can be made stored, a run stops with the steps it has or takes one
more. -/
theorem stops_or_counts (fits : f.Accesses r.position → r.machine.Fits) :
    (∃ e, Halts (advance f policy none) r e ∧ e.2.steps = r.steps) ∨
      ∃ r', Leads (advance f policy none) r r' ∧ r'.steps = r.steps + 1 := by
  cases goes : advance f policy none r with
  | inr e => exact .inl ⟨e, .stop goes, congrArg Runner.steps (advance_inr goes)⟩
  | inl r' =>
    rcases counted_or_grown goes with counted | ⟨rfl, accesses, -⟩
    · exact .inr ⟨r', .single goes, counted⟩
    -- The cell has been made stored, which cannot happen to it again.
    · have stored := (Machine.stored_iff_index (Machine.fits_touch (fits accesses))).1
        r.machine.stored_touch
      cases next : advance f policy none ⟨r.machine.touch, r.position, r.steps⟩ with
      | inr e =>
        have same := congrArg Runner.steps (advance_inr next)
        exact .inl ⟨e, .before (.single goes) (.stop next), same⟩
      | inl r'' =>
        rcases counted_or_grown next with counted | ⟨-, -, outside⟩
        · exact .inr ⟨r'', .tail (.single goes) next, counted⟩
        · exact absurd stored outside

/-- A run stops before a number of steps, or it comes to have taken so many. -/
theorem stops_or_passes {bound : Nat} (le : r.steps ≤ bound)
    (fits : ∀ r', Leads (advance f policy none) r r' → r'.steps < bound →
      f.Accesses r'.position → r'.machine.Fits) :
    (∃ e, Halts (advance f policy none) r e ∧ e.2.steps < bound) ∨
      ∃ r', Leads (advance f policy none) r r' ∧ r'.steps = bound := by
  obtain ⟨left, rfl⟩ := Nat.exists_eq_add_of_le le
  induction left generalizing r with
  | zero => exact .inr ⟨r, .refl, rfl⟩
  | succ left ih =>
    rcases stops_or_counts (fits r .refl (by omega)) with ⟨e, halts, same⟩ | ⟨r', leads, more⟩
    · exact .inl ⟨e, halts, by omega⟩
    · have shift : r'.steps + left = r.steps + (left + 1) := by omega
      rw [← shift] at fits ⊢
      rcases ih (by omega) fun r'' leads' => fits r'' (leads.trans leads') with
        ⟨e, halts, less⟩ | ⟨r'', leads', same⟩
      · exact .inl ⟨e, halts.before leads, less⟩
      · exact .inr ⟨r'', leads.trans leads', same⟩

/-! ### One call -/

/-- Where calls leave a runner: at as many steps as a ceiling allows, or before that where the run
without a limit stops. -/
structure Stands (f : Flat) (policy : EndOfInput) (start : Runner) (ceiling : Nat) (r : Runner) :
    Prop where
  leads : Leads (advance f policy none) start r
  le : r.steps ≤ ceiling
  stays : r.steps = ceiling ∨ ∃ fault, advance f policy none r = .inr (fault, r)

/-- What a call comes to: the limit is exceeded, or the run without a limit stops like this. -/
def Ends (f : Flat) (policy : EndOfInput) (start : Runner) (limit : Int)
    (e : Option RunFault × Runner) : Prop :=
  e.1 = some (.stepLimit limit) ∧ limit < e.2.steps ∨
    (e.2.steps : Int) ≤ limit ∧ Halts (advance f policy none) start e

/-- A run that comes to take a step too many is stopped just after it. -/
theorem halts_of_crossing {limit : Nat} {last : Runner}
    (leads : Leads (advance f policy none) r last) (le : last.steps ≤ limit)
    (gt : limit < (advance f policy none last).elim Runner.steps (·.2.steps)) :
    ∃ r', Leads (advance f policy none) r r' ∧ r'.steps = limit + 1 ∧
      Halts (advance f policy (some limit)) r (some (.stepLimit limit), r') := by
  have free : advance f policy (some limit) last = advance f policy none last :=
    advance_of_free (exceeded?_of_le (Int.ofNat_le.2 le))
  cases goes : advance f policy none last with
  | inr e =>
    rw [goes, Sum.elim_inr, advance_inr goes] at gt
    omega
  | inl r' =>
    rw [goes, Sum.elim_inl] at gt
    have counted : r'.steps = last.steps + 1 := by
      rcases counted_or_grown goes with counted | ⟨rfl, -⟩
      · exact counted
      · exact absurd gt (Nat.not_lt.2 le)
    have within : Leads (advance f policy (some limit)) r last :=
      (limited f policy limit).leads leads le
    exact ⟨r', leads.tail goes, by omega, r', within.tail (free.trans goes),
      advance_of_exceeded (exceeded?_of_lt (Int.ofNat_lt.2 gt))⟩

section
variable {bound : Nat} (stands : Stands f policy start bound r)
include stands

/-- Where the run without a limit stops in time, the call stops. -/
theorem Stands.call_of_stop {limit : Nat} {last : Runner} {fault : Option RunFault}
    (leads : Leads (advance f policy none) r last)
    (stop : advance f policy none last = .inr (fault, last)) (within : last.steps ≤ limit) :
    ∃ e, Halts (advance f policy (some limit)) r e ∧ Ends f policy start limit e ∧
      Stands f policy start (max bound (limit + 1)) e.2 := by
  have halts : Halts (advance f policy none) r (fault, last) := ⟨last, leads, stop⟩
  have le : last.steps ≤ max bound (limit + 1) :=
    Nat.le_trans (Nat.le_succ_of_le within) (Nat.le_max_right _ _)
  exact ⟨_, (limited f policy limit).halts halts within,
    .inr ⟨Int.ofNat_le.2 within, halts.before stands.leads⟩,
    stands.leads.trans leads, le, .inr ⟨fault, stop⟩⟩

/-- Where the run without a limit takes a step too many, the call is stopped after it. -/
theorem Stands.call_of_pass {limit : Nat} (le : bound ≤ limit) {last : Runner}
    (leads : Leads (advance f policy none) r last) (steps : last.steps = limit + 1) :
    ∃ e, Halts (advance f policy (some limit)) r e ∧ Ends f policy start limit e ∧
      Stands f policy start (max bound (limit + 1)) e.2 := by
  obtain ⟨last, leads, within, gt⟩ := Course.crosses_of_leads
    (fun e : _ × Runner => e.2.steps) leads (Nat.le_trans stands.le le) (by omega)
  obtain ⟨r', leads, steps, stopped⟩ := halts_of_crossing leads within gt
  have exceeds : (limit : Int) < r'.steps := by omega
  refine ⟨_, stopped, .inl ⟨rfl, exceeds⟩, ?_⟩
  rw [Nat.max_eq_right (Nat.le_succ_of_le le)]
  exact ⟨stands.leads.trans leads, Nat.le_of_eq steps, .inl steps⟩

/-- A call stops as it should, and leaves the runner where it should stand. -/
theorem Stands.call (limit : Int)
    (fits : ∀ r, Leads (advance f policy none) start r → r.steps < max bound (limit + 1).toNat →
      f.Accesses r.position → r.machine.Fits) :
    ∃ e, Halts (advance f policy (some limit)) r e ∧ Ends f policy start limit e ∧
      Stands f policy start (max bound (limit + 1).toNat) e.2 := by
  have le := stands.le
  by_cases exceeded : limit < r.steps
  · rw [Nat.max_eq_left (by omega)]
    exact ⟨_, .stop (advance_of_exceeded (exceeded?_of_lt exceeded)), .inl ⟨rfl, exceeded⟩, stands⟩
  obtain ⟨limit, rfl⟩ := Int.eq_ofNat_of_zero_le (show 0 ≤ limit by omega)
  rw [show ((limit : Int) + 1).toNat = limit + 1 by omega] at fits ⊢
  rcases stands.stays with full | ⟨fault, stop⟩
  · rcases stops_or_passes (show r.steps ≤ limit + 1 by omega) fun r' leads less =>
        fits r' (stands.leads.trans leads) (by omega) with
      ⟨⟨fault, last⟩, ⟨last', leads, stop⟩, less⟩ | ⟨r', leads, steps⟩
    · cases advance_inr stop
      exact stands.call_of_stop leads stop (Nat.le_of_lt_succ less)
    · exact stands.call_of_pass (by omega) leads steps
  · exact stands.call_of_stop .refl stop (by omega)

end

/-! ### Sequences of calls -/

/-- A call that comes to a result is followed by the calls from there. -/
theorem CallsFit.cons {limit : Int} {limits : List Int} {fuel : Nat} {e : Option RunFault × Runner}
    (words : r.misfit? batchSteps (some limit) = none)
    (first : r.run f policy batchSteps (some limit) fuel = some e)
    (others : CallsFit f policy batchSteps limits e.2) :
    CallsFit f policy batchSteps (limit :: limits) r := by
  refine ⟨words, fun fuel' ran run => ?_⟩
  have known : batch fuel policy batchSteps (some limit) f r =
      some (Ran.ofRunner f r.machine.growths.size e) := by
    rw [batch_eq_map words, first, Option.map_some]
  cases batch_unique run known
  exact others

/-- The first call settles on a result, and from there the others do. -/
theorem settles_calls {limit : Int} {limits : List Int} {ran : Ran} {results : List Ran}
    (first : Settles (fun fuel => batch fuel policy batchSteps (some limit) f r) ran)
    (others : Settles (fun fuel => calls f policy batchSteps fuel limits ran.runner) results) :
    Settles (fun fuel => calls f policy batchSteps fuel (limit :: limits) r) (ran :: results) := by
  obtain ⟨bound, first⟩ := first
  obtain ⟨bound', others⟩ := others
  refine ⟨max bound bound', fun fuel => ?_⟩
  simp only [calls, first fuel]
  by_cases early : fuel < bound
  · rw [if_pos early, if_pos (by omega)]
  · simp only [if_neg early, others fuel]
    by_cases early' : fuel < bound'
    · rw [if_pos early', if_pos (by omega), Option.map_none]
    · rw [if_neg early', if_neg (by omega), Option.map_some]

/-- Each of some calls ends as it should, and leaves the runner where it should stand. -/
theorem calls_spec (hb : 1 ≤ batchSteps) {bound : Nat} (limits : List Int)
    (words : CallsFit f policy batchSteps limits r) (stands : Stands f policy start bound r)
    (fits : ∀ r, Leads (advance f policy none) start r → r.steps < max bound (ceiling limits) →
      f.Accesses r.position → r.machine.Fits) :
    ∃ results, Settles (fun fuel => calls f policy batchSteps fuel limits r) results ∧
      results.length = limits.length ∧
      ∀ before limit after, limits = before ++ limit :: after →
        ∃ ran, results[before.length]? = some ran ∧
          Ends f policy start limit (ran.fault?, ran.runner) ∧
          Stands f policy start (max bound (ceiling (before ++ [limit]))) ran.runner := by
  induction limits generalizing bound r with
  | nil =>
    exact ⟨[], ⟨0, fun fuel => rfl⟩, rfl,
      fun before limit after split => absurd split.symm (by simp)⟩
  | cons limit limits ih =>
    rw [ceiling, ← Nat.max_assoc] at fits
    obtain ⟨e, halts, ends, stands'⟩ := stands.call limit fun r leads less =>
      fits r leads (Nat.lt_of_lt_of_le less (Nat.le_max_left _ _))
    have settled := settles_batch_of_halts words.1 hb halts
    obtain ⟨fuel, ran⟩ := settled.exists_fuel
    obtain ⟨results, settles, length, each⟩ := ih (words.2 fuel _ ran) stands' fits
    refine ⟨_ :: results, settles_calls settled settles, congrArg (· + 1) length,
      fun before limit' after split => ?_⟩
    cases before with
    | nil =>
      cases split
      refine ⟨_, rfl, ends, ?_⟩
      rwa [List.nil_append, ceiling, ceiling, Nat.max_zero]
    | cons _ before =>
      cases split
      obtain ⟨ran', here, ends', stands''⟩ := each before limit' after rfl
      rw [Nat.max_assoc] at stands''
      exact ⟨ran', here, ends', stands''⟩

/-- A runner that stands under a ceiling has as many steps, or all of the run without a limit. -/
theorem steps_of_stands (hb : 1 ≤ batchSteps) (words : start.misfit? batchSteps none = none)
    {bound : Nat} (fresh : start.steps = 0) (stands : Stands f policy start bound r) :
    (r.steps : ℕ∞) = min (bound : ℕ∞) (start.total f policy batchSteps) := by
  rcases stands.stays with full | ⟨fault, stop⟩
  · have low : (r.steps : ℕ∞) ≤ start.total f policy batchSteps := by
      refine Course.le_total fun fuel ran run => ?_
      obtain ⟨e, halts, rfl⟩ := (batch_iff_halts words hb).1 ⟨fuel, run⟩
      have high : r.steps ≤ e.2.steps :=
        Nat.le_trans (rises r) (rises.le_of_halts (halts.after stands.leads))
      show r.steps ≤ e.2.steps - start.steps
      omega
    rw [← full, min_eq_left low]
  · have total : start.total f policy batchSteps = (r.steps - start.steps : Nat) :=
      Course.total_of_settles (settles_batch_of_halts words hb ⟨r, stands.leads, stop⟩)
    rw [total, fresh, Nat.sub_zero, min_eq_right (Nat.cast_le.2 stands.le)]

/-- **Calls count exactly and resume without loss.** Lowered code is run in batches of any size, by
any calls with limits one after the other, where the numbers that the calls start with fit into
words, and so do the addresses and indexes of the cells that are accessed before the largest limit
is exceeded. Each call stops, and then the steps are those of the run without a limit, in batches of
this or any other size, or those at which the largest limit so far is exceeded if these are fewer.
The runner stands on the way of the run without a limit, and it shows what that shows there after as
many steps. The call says that its limit is exceeded exactly if it is, and else it ends, or wants a
byte that is not there, as the run without a limit does. -/
theorem calls_resume {c : Packed} {m : Machine} {batchSteps' : Int} (policy : EndOfInput)
    (limits : List Int) (lowered : c.lower? = some f) (hb : 1 ≤ batchSteps) (hb' : 1 ≤ batchSteps')
    (words : CallsFit f policy batchSteps limits { machine := m })
    (words' : misfit? batchSteps' none { machine := m } = none)
    (fits : ∀ r, Leads (advance f policy none) { machine := m } r → r.steps < ceiling limits →
      f.Accesses r.position → r.machine.Fits) :
    ∃ results, Settles (fun fuel => calls f policy batchSteps fuel limits { machine := m })
        results ∧ results.length = limits.length ∧
      ∀ (before : List Int) limit after, limits = before ++ limit :: after →
        ∃ ran, results[before.length]? = some ran ∧
          (ran.steps : ℕ∞) = min (ceiling (before ++ [limit]) : ℕ∞)
            (total f policy batchSteps' { machine := m }) ∧
          Leads (advance f policy none) { machine := m } ran.runner ∧
          (∀ r', Leads (advance f policy none) { machine := m } r' → r'.steps = ran.steps →
            r'.picture = ran.runner.picture) ∧
          (ran.fault? = some (.stepLimit limit) ↔ limit < ran.steps) ∧
          (ran.steps ≤ limit →
            (∃ whole, Settles (fun fuel => batch fuel policy batchSteps' none f { machine := m })
              whole ∧ whole.fault? = ran.fault? ∧ whole.runner = ran.runner) ∧
            (ran.fault? = none ∨ ∃ cell, ran.fault? = some (.inputExhausted cell))) := by
  have stands : Stands f policy { machine := m } 0 { machine := m } :=
    ⟨.refl, Nat.le_refl 0, .inl rfl⟩
  obtain ⟨results, settles, length, each⟩ := calls_spec hb limits words stands
    (by rwa [Nat.zero_max])
  refine ⟨results, settles, length, fun before limit after split => ?_⟩
  obtain ⟨ran, here, ends, stands⟩ := each before limit after split
  rw [Nat.zero_max] at stands
  refine ⟨ran, here, steps_of_stands hb' words' rfl stands, stands.leads, fun r' leads same =>
    rises.view_eq picture_of_uncounted leads stands.leads same, ?_⟩
  rcases ends with ⟨exceeded, exceeds⟩ | ⟨within, halts⟩
  · exact ⟨⟨fun _ => exceeds, fun _ => exceeded⟩,
      fun within => absurd exceeds (Int.not_lt.2 within)⟩
  · have first : f.Admits (position { machine := m }) := show -(f.size : Int) ≤ 0 by omega
    have expected : ran.fault? = none ∨ ∃ cell, ran.fault? = some (.inputExhausted cell) := by
      rcases (expected_of_halts (Flat.closed_of_lower lowered).anchored first halts).cases with
        ended | exhausted | ⟨l, limited, -⟩
      · exact .inl ended
      · exact .inr exhausted
      · exact nomatch limited
    refine ⟨⟨fun exceeded => ?_, fun exceeds => absurd exceeds (Int.not_lt.2 within)⟩,
      fun _ => ⟨⟨_, settles_batch_of_halts words' hb' halts, rfl, rfl⟩, expected⟩⟩
    rcases expected with ended | ⟨cell, exhausted⟩
    · exact nomatch ended.symm.trans exceeded
    · exact nomatch exhausted.symm.trans exceeded

/-! ### A run of three slots -/

/-- One cell to the left, one is added and the byte is written out: `<+.`. -/
def markLeft : Packed := .leaf (.move (-1)) <| .leaf (.add 1) <| .leaf (.plain .output) .nil

def markLeftSlots : Flat := ⟨#[0, 1, 3], #[-1, 1, 0]⟩

theorem fits_markLeft (leads : Leads (advance markLeftSlots policy none) { machine := {} } r) :
    r.machine.Fits := by
  have tested : Course.tested (advance markLeftSlots policy none) (fun r => decide r.machine.Fits)
      5 { machine := {} } = true := rfl
  have passed := Course.of_tested tested leads
  exact of_decide_eq_true passed

theorem callsFit_markLeft :
    CallsFit markLeftSlots .error 2 [1, -5, 0, 7] { machine := {} } := by
  -- The first call leaves the runner in front of the output, and the next two leave it there.
  have first : run markLeftSlots .error 2 (some 1) 9 { machine := {} } =
      some (some (.stepLimit 1), ⟨⟨⟨#[1], 1, -1⟩, [], #[], #[⟨.left, 1, 1, 1⟩]⟩, 2, 2⟩) := rfl
  have second : run markLeftSlots .error 2 (some (-5)) 9
      ⟨⟨⟨#[1], 1, -1⟩, [], #[], #[⟨.left, 1, 1, 1⟩]⟩, 2, 2⟩ =
      some (some (.stepLimit (-5)), ⟨⟨⟨#[1], 1, -1⟩, [], #[], #[⟨.left, 1, 1, 1⟩]⟩, 2, 2⟩) := rfl
  have third : run markLeftSlots .error 2 (some 0) 9
      ⟨⟨⟨#[1], 1, -1⟩, [], #[], #[⟨.left, 1, 1, 1⟩]⟩, 2, 2⟩ =
      some (some (.stepLimit 0), ⟨⟨⟨#[1], 1, -1⟩, [], #[], #[⟨.left, 1, 1, 1⟩]⟩, 2, 2⟩) := rfl
  have fourth : run markLeftSlots .error 2 (some 7) 9
      ⟨⟨⟨#[1], 1, -1⟩, [], #[], #[⟨.left, 1, 1, 1⟩]⟩, 2, 2⟩ =
      some (none, ⟨⟨⟨#[1], 1, -1⟩, [], #[1], #[⟨.left, 1, 1, 1⟩]⟩, 3, 3⟩) := rfl
  exact .cons rfl first <| .cons rfl second <| .cons rfl third <| .cons rfl fourth trivial

/-- A limit of one is exceeded by two steps, and those below it are exceeded by the same two. A
limit of seven is not exceeded by the three steps of the whole run. -/
theorem calls_resume_markLeft :
    ∃ results, Settles (fun fuel => calls markLeftSlots .error 2 fuel [1, -5, 0, 7]
        { machine := {} }) results ∧
      (∃ ran, results[1]? = some ran ∧ ran.fault? = some (.stepLimit (-5)) ∧ ran.steps = 2) ∧
      ∃ ran, results[3]? = some ran ∧ ran.fault? = none ∧ ran.steps = 3 ∧
        ran.machine.written = #[1] := by
  have lowered : markLeft.lower? = some markLeftSlots := rfl
  have stops : Halts (advance markLeftSlots .error none) { machine := {} }
      (none, ⟨⟨⟨#[1], 1, -1⟩, [], #[1], #[⟨.left, 1, 1, 1⟩]⟩, 3, 3⟩) :=
    (run_iff_halts (by decide : (1 : Int) ≤ 2)).1 ⟨9, rfl⟩
  have words : misfit? 1000 none { machine := {} } = none := rfl
  have settled := settles_batch_of_halts words (by decide) stops
  have total : total markLeftSlots .error 1000 { machine := {} } = (3 : Nat) :=
    Course.total_of_settles settled
  obtain ⟨results, settles, -, each⟩ := calls_resume .error [1, -5, 0, 7] lowered
    (by decide : (1 : Int) ≤ 2) (by decide : (1 : Int) ≤ 1000) callsFit_markLeft rfl
    fun r leads _ _ => fits_markLeft leads
  refine ⟨results, settles, ?_, ?_⟩
  · obtain ⟨ran, here, steps, -, -, exceeded, -⟩ := each [1] (-5) [0, 7] rfl
    rw [total, min_eq_left (Nat.cast_le.2 (show ceiling ([1] ++ [-5]) ≤ 3 by decide))] at steps
    have two : ran.steps = 2 := Nat.cast_inj.1 steps
    exact ⟨ran, here, exceeded.2 (by omega), two⟩
  · obtain ⟨ran, here, steps, -, -, -, unlimited⟩ := each [1, -5, 0] 7 [] rfl
    rw [total, min_eq_right (Nat.cast_le.2 (show 3 ≤ ceiling ([1, -5, 0] ++ [7]) by decide))]
      at steps
    have three : ran.steps = 3 := Nat.cast_inj.1 steps
    obtain ⟨⟨whole, same, fault, runner⟩, -⟩ := unlimited (by omega)
    obtain ⟨fuel, run⟩ := same.exists_fuel
    obtain ⟨fuel', run'⟩ := settled.exists_fuel
    cases batch_unique run run'
    exact ⟨ran, here, fault.symm, three, congrArg (·.machine.written) runner.symm⟩

end TapeLang.Runner
