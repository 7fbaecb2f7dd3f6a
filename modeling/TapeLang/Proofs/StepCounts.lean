import Mathlib.Tactic.Choose
import TapeLang.Proofs.Limits

/-! How many steps the two ways of running take.

A walk and a run in batches both count what the evaluation counts: an operation or a look at a loop,
from whichever of its jumps (`Program.batched_of_ended`). On a program that ends they therefore take
the same number of steps at level zero, where the packed code is the program as it is. Passes
shorten code, and the passes of a higher level begin with those of a lower one
(`Packed.optimize_shortens`), so the steps never become more from level to level, and a limit that
the walk keeps to is kept to at every level (`counts_of_levels`). -/
namespace TapeLang
open Course (Halts Limited Settles)

variable {p : Program} {policy : EndOfInput} {m x : Machine} {n : Nat}

/-- Whether a program in batches, as packed code of a level, comes to an end with a machine after a
number of steps. The end is past the last slot, with any fuel that is enough for it. -/
def Program.Batched (p : Program) (policy : EndOfInput) (batchSteps : Int) (limit : Option Int)
    (level : Int) (m m' : Machine) (steps : Nat) : Prop :=
  ∃ f, (Packed.optimize level p).lower? = some f ∧
    Settles (fun fuel => Runner.run f policy batchSteps limit fuel { machine := m })
      (none, ⟨m', f.size, steps⟩)

/-! ### Steps of a level -/

/-- **Packed code that ends does so in batches of any size**, in as many steps as its evaluation and
under any limit that they do not exceed. -/
theorem Program.batched_of_ended (short : fitsWord (2 * p.size : Nat) = true)
    (fits : p.Stays (Command.exec policy) Machine.Fits m) (level : Int) {steps : Nat}
    (ended : (Packed.optimize level p).Reaches (Op.exec policy) m steps (.settled (.ended x)))
    {batchSteps : Int} (hb : 1 ≤ batchSteps) :
    p.Batched policy batchSteps none level m x steps ∧
      ∀ limit : Int, steps ≤ limit →
        p.Batched policy batchSteps (some limit) level m x steps := by
  obtain ⟨f, lowered⟩ := Packed.lower_optimize level short
  have holds := Flat.holds_of_lower (Packed.isPacked_optimize level p) lowered
  have packedFits := Packed.stays_optimize fits level
  refine ⟨⟨f, lowered, ?_⟩, fun limit within => ⟨f, lowered, ?_⟩⟩
  · obtain ⟨e, halts, rfl⟩ := Runner.runner_halts_of_reaches holds packedFits ended
    rw [Nat.zero_add] at halts
    simpa using Runner.settles_of_halts hb halts id
  · obtain ⟨limit, rfl⟩ := Int.eq_ofNat_of_zero_le (Int.le_trans (Int.natCast_nonneg steps) within)
    obtain ⟨e, halts, rfl⟩ := Runner.halts_within holds ended (Int.ofNat_le.1 within)
      (packedFits.staysFor steps)
    rw [Nat.zero_add] at halts
    simpa using Runner.settles_of_halts hb halts id

/-- A walk that ends keeps to a limit exactly if its steps do not exceed it. -/
theorem Walker.within_iff (ended : p.Reaches (Command.exec policy) m n (.settled (.ended x)))
    (limit : Nat) :
    (∃ fuel w, (start p m 0).run policy (some limit) fuel = some (none, w)) ↔ n ≤ limit := by
  simp only [run_eq]
  constructor
  · rintro ⟨fuel, w, run⟩
    refine Nat.le_of_not_lt fun above => ?_
    obtain ⟨e, halts, reports⟩ := walker_halts_of_reaches ended 0
    have total : limit < e.2.steps := by
      cases reports
      show limit < 0 + n
      omega
    obtain ⟨e', stopped, exceeded⟩ :=
      (limited policy limit).over_of_halts halts (Nat.zero_le _) total
    cases (Course.halts_of_run run).unique stopped
    exact nomatch exceeded
  · intro le
    obtain ⟨e, halts, rfl⟩ := halts_within ended le (fun _ h => nomatch h)
    obtain ⟨fuel, run⟩ := Course.run_of_halts halts
    exact ⟨fuel, _, run⟩

/-! ### The counts of all levels -/

/-- **At level zero as many steps are taken in batches as on a walk, and from level to level they
never become more.** If the walk through a program ends, its packed code of every level ends with
the same machine, in batches of any size, after a number of steps that depends on the level alone.
A limit that is not below zero lets the walk come to its end exactly if it is not below the steps of
the walk, and such a limit lets the packed code of every level come to its end too. -/
theorem counts_of_levels {fuel : Nat} {w : Walker} (short : fitsWord (2 * p.size : Nat) = true)
    (fits : p.Stays (Command.exec policy) Machine.Fits m)
    (walked : (Walker.start p m 0).run policy none fuel = some (none, w)) :
    ∃ steps : Int → Nat, steps 0 = w.steps ∧
      (∀ level level', level ≤ level' → steps level' ≤ steps level) ∧
      (∀ level, steps level ≤ w.steps) ∧
      (∀ level batchSteps, 1 ≤ batchSteps →
        p.Batched policy batchSteps none level m w.machine (steps level)) ∧
      (∀ limit : Nat, (∃ fuel w',
        (Walker.start p m 0).run policy (some limit) fuel = some (none, w')) ↔ w.steps ≤ limit) ∧
      ∀ limit : Int, w.steps ≤ limit → ∀ level batchSteps, 1 ≤ batchSteps →
        p.Batched policy batchSteps (some limit) level m w.machine (steps level) := by
  rw [Walker.run_eq] at walked
  obtain ⟨n, o, ended, reports⟩ := Walker.reaches_of_walker_halts (Course.halts_of_run walked)
  cases o with
  | exhausted x => exact nomatch reports.1
  | ended x =>
    cases reports
    simp only [Nat.zero_add]
    have packed : (Packed.ofProgram p).Reaches (Op.exec policy) m n (.settled (.ended x)) :=
      Packed.reaches_ofProgram.2 ended
    have counted : ∀ level, ∃ k ≤ n,
        (Packed.optimize level p).Reaches (Op.exec policy) m k (.settled (.ended x)) :=
      fun level => (Packed.applyAll_shortens (Packed.passesAt level) _).settled packed
    choose steps le reaches using counted
    refine ⟨steps, ?_, fun level level' lower => ?_, le, fun level batchSteps hb => ?_,
      Walker.within_iff ended, fun limit within level batchSteps hb => ?_⟩
    · exact (Code.settled_unique (reaches 0) packed).1
    · obtain ⟨k, fewer, again⟩ := (Packed.optimize_shortens lower p).settled (reaches level)
      rwa [(Code.settled_unique (reaches level') again).1]
    · exact (p.batched_of_ended short fits level (reaches level) hb).1
    · have := le level
      exact (p.batched_of_ended short fits level (reaches level) hb).2 limit (by omega)

/-- Two cells to the left, one is added and the cell is cleared: `<<+[-]`. -/
def Program.clearLeft : Program :=
  .leaf .retreat <| .leaf .retreat <| .leaf .increment <| .loop (.leaf .decrement .nil) .nil

theorem stays_clearLeft : Program.clearLeft.Stays (Command.exec policy) Machine.Fits {} :=
  Program.stays_of_fitsAlong rfl

/-- The walk takes six steps, so no level takes more of them, under a limit of six too. -/
theorem counts_of_levels_clearLeft :
    ∃ steps : Int → Nat, steps 0 = 6 ∧ steps 1 ≤ 6 ∧ steps 2 ≤ steps 1 ∧
      ∀ level, Program.clearLeft.Batched .error 1 (some 6) level {}
        ⟨⟨#[0, 0], 2, -2⟩, [], #[], #[⟨.left, 2, 2, 2⟩]⟩ (steps level) := by
  have walked : (Walker.start Program.clearLeft {} 0).run .error none 30 = some (none,
      ⟨[], ⟨⟨#[0, 0], 2, -2⟩, [], #[], #[⟨.left, 2, 2, 2⟩]⟩, 6⟩) := by
    rfl
  obtain ⟨steps, exact, fewer, bounded, -, -, limited⟩ :=
    counts_of_levels (by decide) stays_clearLeft walked
  exact ⟨steps, exact, bounded 1, fewer 1 2 (by decide),
    fun level => limited 6 (by decide) level 1 (by decide)⟩

end TapeLang
