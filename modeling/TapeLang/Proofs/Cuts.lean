import Mathlib.Data.ENat.Lattice
import TapeLang.Proofs.StepCounts

/-! Where a limit cuts a walk.

A walk takes its steps one by one, and a limit has a say only in those that count
(`Walker.move_counted`). So a walk under a limit goes the way of the walk without one, up to the
step that is one too many, and it stops there with the machine that the steps before that one have
left, however deep in loops, and whether the walk without a limit ever ends or not
(`Walker.cut_by_limit`). The steps counted before the walk started count too. -/
namespace TapeLang
open Course (Leads Halts Settles Rises Passes)

namespace Course
variable {ε : Type} {result : Nat → Option ε} {count : ε → Nat}

/-- What is counted of the result of a computation with fuel. Without a result there is no bound. -/
noncomputable def total (result : Nat → Option ε) (count : ε → Nat) : ℕ∞ :=
  ⨅ (fuel : Nat) (e : ε) (_ : result fuel = some e), (count e : ℕ∞)

theorem le_total {n : Nat} (h : ∀ fuel e, result fuel = some e → n ≤ count e) :
    (n : ℕ∞) ≤ total result count :=
  le_iInf₂ fun fuel e => le_iInf fun ran => Nat.cast_le.2 (h fuel e ran)

theorem total_of_settles {e : ε} (h : Settles result e) : total result count = count e := by
  obtain ⟨fuel, ran⟩ := h.exists_fuel
  obtain ⟨bound, h⟩ := h
  refine le_antisymm (iInf₂_le_of_le fuel e (iInf_le _ ran)) (le_total fun fuel' e' ran' => ?_)
  rw [h] at ran'
  split at ran'
  · cases ran'
  · cases ran'
    exact Nat.le_refl _

end Course

namespace Walker
variable {policy : EndOfInput} {w w' : Walker} {limit : Int}

/-- How many steps a walk without a limit takes, a read that fails included. -/
noncomputable def total (policy : EndOfInput) (w : Walker) : ℕ∞ :=
  Course.total (fun fuel => w.run policy none fuel) (·.2.steps - w.steps)

/-- So many steps are none, or they stay within the limit with those counted before. -/
def Within (limit : Int) (before : Nat) (steps : ℕ∞) : Prop :=
  steps = 0 ∨ ∃ n : Nat, steps = n ∧ (before + n : Int) ≤ limit

theorem settles_of_halts {limit : Option Int} {e : Option RunFault × Walker}
    (halts : Halts (move policy limit) w e) : Settles (fun fuel => w.run policy limit fuel) e := by
  simp only [run_eq]
  exact halts.settled

/-! ### Steps -/

/-- Leaving a sequence is all that a walk does without counting it. -/
theorem machine_of_uncounted (h : move policy none w = .inl w') (same : w'.steps = w.steps) :
    w'.machine = w.machine := by
  cases goesOn_of_move h with
  | leave frames m steps => rfl
  | leaf run rest frames steps => exact absurd same (Nat.succ_ne_self steps)
  | skip zero body rest frames steps => exact absurd same (Nat.succ_ne_self steps)
  | enter nonzero body rest frames steps => exact absurd same (Nat.succ_ne_self steps)

/-- After as many steps of a walk the machine is the same. -/
theorem machine_of_passes {n : Nat} {w₁ w₂ : Walker}
    (h₁ : Passes (move policy none) Walker.steps w n w₁)
    (h₂ : Passes (move policy none) Walker.steps w n w₂) : w₁.machine = w₂.machine :=
  (rises policy).view_eq machine_of_uncounted h₁.1 h₂.1 (h₁.2.trans h₂.2.symm)

/-! ### Limits -/

theorem leads_within (leads : Leads (move policy none) w w')
    (within : (w'.steps : Int) ≤ max (w.steps : Int) limit) :
    Leads (move policy (some limit)) w w' := by
  induction leads with
  | refl => exact .refl
  | @tail last next before goes ih =>
    have low := (rises policy).le_of_leads before
    have high := (rises policy).le_of_goes goes
    have counted : (move policy none last).elim Walker.steps (·.2.steps) = next.steps := by
      rw [show move policy none last = .inl next from goes, Sum.elim_inl]
    exact (ih (by omega)).tail ((move_within policy last counted (by omega)).trans goes)

theorem halts_of_within {e : Option RunFault × Walker} (halts : Halts (move policy none) w e)
    (within : (e.2.steps : Int) ≤ max (w.steps : Int) limit) :
    Halts (move policy (some limit)) w e := by
  obtain ⟨last, leads, stop⟩ := halts
  have low := (rises policy).le_of_leads leads
  have counted : (move policy none last).elim Walker.steps (·.2.steps) = e.2.steps := by
    rw [stop, Sum.elim_inr]
  have high : last.steps ≤ e.2.steps := counted ▸ rises policy last
  exact ⟨last, leads_within leads (by omega),
    (move_within policy last counted (by omega)).trans stop⟩

/-- Where a step is one too many, the walk under the limit stops before it. -/
theorem halts_of_crossing {bound : Nat} (meets : (bound : Int) = max (w.steps : Int) limit)
    {last : Walker} (leads : Leads (move policy none) w last) (le : last.steps ≤ bound)
    (gt : bound < (move policy none last).elim Walker.steps (·.2.steps)) :
    last.steps = bound ∧
      Halts (move policy (some limit)) w
        (some (.stepLimit limit), { last with steps := bound + 1 }) := by
  have counted := move_counted policy last
  obtain rfl : last.steps = bound := by omega
  exact ⟨rfl, last, leads_within leads (by omega), move_beyond policy gt (by omega)⟩

/-- What a walk stops with in time has counted all steps, and these are within the limit. -/
theorem within_of_halts {e : Option RunFault × Walker} (halts : Halts (move policy none) w e)
    (le : (e.2.steps : Int) ≤ max (w.steps : Int) limit) :
    Within limit w.steps (w.total policy) ∧ (e.2.steps : ℕ∞) = w.steps + w.total policy := by
  have low : w.steps ≤ e.2.steps := Nat.le_trans (rises policy w) ((rises policy).le_of_halts halts)
  have total : w.total policy = (e.2.steps - w.steps : Nat) :=
    Course.total_of_settles (settles_of_halts halts)
  rw [total, ← Nat.cast_add, Nat.add_sub_cancel' low]
  refine ⟨?_, rfl⟩
  by_cases none : e.2.steps = w.steps
  · exact .inl (by rw [none, Nat.sub_self, Nat.cast_zero])
  · exact .inr ⟨_, rfl, by omega⟩

/-- Whatever a walk stops with that comes to a step too many, it has counted that step. -/
theorem not_within_of_crossing {bound : Nat} (meets : (bound : Int) = max (w.steps : Int) limit)
    {last : Walker} (leads : Leads (move policy none) w last)
    (gt : bound < (move policy none last).elim Walker.steps (·.2.steps)) :
    ¬ Within limit w.steps (w.total policy) := by
  have long : ((bound + 1 - w.steps : Nat) : ℕ∞) ≤ w.total policy := by
    refine Course.le_total fun fuel e ran => ?_
    rw [run_eq] at ran
    have high := (rises policy).le_of_halts ((Course.halts_of_run ran).after leads)
    omega
  rintro (none | ⟨n, same, le⟩)
  · rw [none, ← Nat.cast_zero, Nat.cast_le] at long
    omega
  · rw [same, Nat.cast_le] at long
    omega

variable (policy) in
/-- A walk without a limit stops within a number of steps, or takes more. -/
theorem stops_or_crosses (p : Program) (m : Machine) {before bound : Nat} (le : before ≤ bound) :
    (∃ e, Halts (move policy none) (start p m before) e ∧ e.2.steps ≤ bound) ∨
      ∃ last, Leads (move policy none) (start p m before) last ∧ last.steps ≤ bound ∧
        bound < (move policy none last).elim Walker.steps (·.2.steps) := by
  rcases Code.past_or_over (Command.exec policy) (bound - before) p m with
    ⟨x, past⟩ | ⟨k, -, o, ending⟩
  · obtain ⟨w, leads, -, steps⟩ := follows past [] before
    have beyond : bound < w.steps := by omega
    exact .inr (Course.crosses_of_leads (fun e : _ × Walker => e.2.steps) leads le beyond)
  · obtain ⟨e, halts, -⟩ := walker_halts_of_reaches ending before
    by_cases inside : e.2.steps ≤ bound
    · exact .inl ⟨e, halts, inside⟩
    · exact .inr (Course.crosses_of_halts halts le (Nat.lt_of_not_le inside))

/-- **A limit cuts a walk at one step.** Let a walk without a limit take so many steps, a read that
fails included, or steps without an end. If these are none, or within the limit together with the
steps counted before, then the walk under the limit stops with the same result, and all of them are
counted. Else it is stopped one step after the limit, or after the steps counted before if these
exceed the limit already, and its machine is the one that the walk without a limit has after the
steps that were left. -/
theorem cut_by_limit (p : Program) (m : Machine) (policy : EndOfInput) (before : Nat)
    (limit : Int) :
    (Within limit before ((start p m before).total policy) →
      ∃ e, Settles (fun fuel => (start p m before).run policy none fuel) e ∧
        Settles (fun fuel => (start p m before).run policy (some limit) fuel) e ∧
        (e.2.steps : ℕ∞) = before + (start p m before).total policy) ∧
    (¬ Within limit before ((start p m before).total policy) →
      ∃ w, Settles (fun fuel => (start p m before).run policy (some limit) fuel)
          (some (.stepLimit limit), w) ∧
        (w.steps : Int) = max (before : Int) limit + 1 ∧
        (∃ w', Passes (move policy none) Walker.steps (start p m before)
          (limit - before).toNat w') ∧
        ∀ w', Passes (move policy none) Walker.steps (start p m before)
          (limit - before).toNat w' → w'.machine = w.machine) := by
  obtain ⟨bound, meets⟩ : ∃ bound : Nat, (bound : Int) = max (before : Int) limit :=
    ⟨(max (before : Int) limit).toNat, by omega⟩
  rcases stops_or_crosses policy p m (show before ≤ bound by omega) with
    ⟨e, halts, le⟩ | ⟨last, leads, le, gt⟩
  · have le : (e.2.steps : Int) ≤ max (before : Int) limit := by omega
    obtain ⟨within, steps⟩ := within_of_halts halts le
    exact ⟨fun _ => ⟨e, settles_of_halts halts, settles_of_halts (halts_of_within halts le), steps⟩,
      fun beyond => absurd within beyond⟩
  · have beyond := not_within_of_crossing meets leads gt
    obtain ⟨steps, stopped⟩ := halts_of_crossing meets leads le gt
    have passes : Passes (move policy none) Walker.steps (start p m before)
        (limit - before).toNat last := ⟨leads, show last.steps = before + _ by omega⟩
    have counted : ((bound + 1 : Nat) : Int) = max (before : Int) limit + 1 := by omega
    exact ⟨fun within => absurd within beyond, fun _ => ⟨_, settles_of_halts stopped, counted,
      ⟨last, passes⟩, fun w' passes' => (machine_of_passes passes' passes).trans rfl⟩⟩

/-- With one step counted before, a limit of four leaves the three steps of `<<+`, and a limit of
seven leaves all six. -/
theorem cut_by_limit_clearLeft :
    (∃ w, Settles (fun fuel => (start .clearLeft {} 1).run .error (some 4) fuel)
      (some (.stepLimit 4), w) ∧ w.steps = 5 ∧ w.machine.tape = ⟨#[1, 0], 2, -2⟩) ∧
    ∃ e, Settles (fun fuel => (start .clearLeft {} 1).run .error (some 7) fuel) e ∧
      e.2.steps = 7 := by
  have walked : (start .clearLeft {} 1).run .error none 30 = some (none,
      ⟨[], ⟨⟨#[0, 0], 2, -2⟩, [], #[], #[⟨.left, 2, 2, 2⟩]⟩, 7⟩) := rfl
  have total : (start .clearLeft {} 1).total .error = (6 : Nat) := by
    rw [run_eq] at walked
    exact Course.total_of_settles (settles_of_halts (Course.halts_of_run walked))
  have beyond : ¬ Within 4 1 ((start .clearLeft {} 1).total .error) := by
    rw [total]
    rintro (none | ⟨n, same, le⟩)
    · cases Nat.cast_eq_zero.1 none
    · cases Nat.cast_inj.1 same
      omega
  have within : Within 7 1 ((start .clearLeft {} 1).total .error) := .inr ⟨6, total, by decide⟩
  constructor
  · obtain ⟨w, stopped, steps, -, same⟩ := (cut_by_limit .clearLeft {} .error 1 4).2 beyond
    refine ⟨w, stopped, by omega, ?_⟩
    have third : move .error none ⟨[.leaf .increment <| .loop (.leaf .decrement .nil) .nil],
        ⟨⟨#[], 0, -2⟩, [], #[], #[]⟩, 3⟩ = .inl ⟨[.loop (.leaf .decrement .nil) .nil],
          ⟨⟨#[1, 0], 2, -2⟩, [], #[], #[⟨.left, 2, 2, 2⟩]⟩, 4⟩ := rfl
    rw [← same _ ⟨.head rfl (.head rfl (.single third)), rfl⟩]
  · obtain ⟨e, -, stopped, steps⟩ := (cut_by_limit .clearLeft {} .error 1 7).1 within
    rw [total] at steps
    exact ⟨e, stopped, Nat.cast_inj.1 steps⟩

end Walker

end TapeLang
