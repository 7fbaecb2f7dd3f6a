import TapeLang.Proofs.Backends
import TapeLang.Proofs.Outputs

/-! Runs under a limit.

A walk counts a step before it takes it, and stops if the limit is exceeded; a run of flat code
counts a slot when it is done, and stops before the next one. Each is the run without a limit as
long as the limit is not exceeded (`Walker.limited`, `Runner.limited`), so under a limit every run
has a result. What is left of the two ways of counting shows at one place only: a read that fails is
a step that the walk has counted and the run in batches has not. So both end in the same way, except
where as many steps as the limit allows lead to a read that fails (`limited_runs`). -/
namespace TapeLang
open Course (Halts Limited Settles Rises)

theorem exceeded?_of_le {limit : Int} {steps : Nat} (h : steps ≤ limit) :
    exceeded? (some limit) steps = none := by
  simp [exceeded?, Option.filter, h]

theorem exceeded?_of_lt {limit : Int} {steps : Nat} (h : limit < steps) :
    exceeded? (some limit) steps = some limit := by
  simp [exceeded?, Option.filter, h]

/-- An evaluation takes more than a number of steps, or is over after at most as many. -/
theorem Code.past_or_over {α : Type} (exec : α → Machine → Outcome) (n : Nat) (c : Code α)
    (m : Machine) :
    (∃ x, c.Reaches exec m (n + 1) (.amid x)) ∨ ∃ k ≤ n, ∃ o, c.Reaches exec m k (.settled o) := by
  rcases reaches_or_over exec (n + 1) c m with past | ⟨k, le, o, ending⟩
  · exact .inl past
  · by_cases inside : k ≤ n
    · exact .inr ⟨k, inside, o, ending⟩
    · obtain rfl : k = n + 1 := by omega
      cases o with
      | ended x => exact .inl ⟨x, amid_of_ended ending⟩
      | exhausted x =>
        obtain ⟨y, -, here, -⟩ := amid_of_exhausted ending
        exact .inl ⟨y, here⟩

/-! ### Walks -/

namespace Walker
variable {policy : EndOfInput} {p : Program} {m : Machine} {limit : Nat}

variable (policy) in
/-- A transition counts a step and is taken if the limit allows that, or it counts none and is
always taken. -/
theorem move_counted (w : Walker) :
    (move policy none w).elim Walker.steps (·.2.steps) = w.steps ∧
        (∀ limit, move policy limit w = move policy none w) ∨
      (move policy none w).elim Walker.steps (·.2.steps) = w.steps + 1 ∧
        ∀ limit, move policy limit w =
          match exceeded? limit (w.steps + 1) with
          | some l => .inr (some (.stepLimit l), { w with steps := w.steps + 1 })
          | none => move policy none w := by
  have free : ∀ steps, exceeded? none steps = none := fun _ => rfl
  match w with
  | ⟨[], m, steps⟩ => exact .inl ⟨rfl, fun _ => rfl⟩
  | ⟨.nil :: frames, m, steps⟩ => exact .inl ⟨rfl, fun _ => rfl⟩
  | ⟨.leaf c rest :: frames, m, steps⟩ =>
    refine .inr ⟨?_, fun limit => ?_⟩
    · cases run : c.exec policy m with
      | ended m' =>
        rw [move_leaf run]
        rfl
      | exhausted m' =>
        rw [move_exhausted run]
        rfl
    · simp only [move, step, free]
      cases exceeded? limit (steps + 1) <;> rfl
  | ⟨.loop body rest :: frames, m, steps⟩ =>
    refine .inr ⟨?_, fun limit => ?_⟩
    · by_cases zero : m.touch.current = 0
      · rw [move_skip zero]
        rfl
      · rw [move_enter zero]
        rfl
    · simp only [move, step, free]
      cases exceeded? limit (steps + 1) <;> rfl

variable (policy) in
/-- A transition that counts no step, or one that the limit allows, is taken under the limit. -/
theorem move_within {n : Nat} {limit : Int} (w : Walker)
    (counted : (move policy none w).elim Walker.steps (·.2.steps) = n)
    (within : (n : Int) ≤ max (w.steps : Int) limit) :
    move policy (some limit) w = move policy none w := by
  rcases move_counted policy w with ⟨-, taken⟩ | ⟨more, taken⟩
  · exact taken _
  · rw [taken, exceeded?_of_le (by omega)]

variable (policy) in
/-- A transition that counts a step too many stops the walk. -/
theorem move_beyond {limit : Int} {w : Walker}
    (counts : w.steps < (move policy none w).elim Walker.steps (·.2.steps))
    (beyond : limit < (w.steps + 1 : Nat)) :
    move policy (some limit) w =
      .inr (some (.stepLimit limit), { w with steps := w.steps + 1 }) := by
  rcases move_counted policy w with ⟨same, -⟩ | ⟨-, taken⟩
  · omega
  · rw [taken, exceeded?_of_lt beyond]

variable (policy) in
theorem rises : Rises (move policy none) Walker.steps (·.2.steps) := fun w => by
  rcases move_counted policy w with ⟨same, -⟩ | ⟨more, -⟩ <;> omega

variable (policy limit) in
/-- **A walk under a limit is the walk without one, as long as it counts no further.** -/
theorem limited : Limited (move policy (some limit)) (move policy none) Walker.steps (·.2.steps)
    limit (·.1 = some (.stepLimit limit)) where
  rises := rises policy
  within le := move_within policy _ rfl (by omega)
  beyond {w} le gt := by
    have counted := move_counted policy w
    exact ⟨_, .stop (move_beyond policy (by omega) (by omega)), rfl⟩

/-- A walk that wants to take more steps than the limit allows is stopped. -/
theorem over_of_amid {x : Machine} (h : p.Reaches (Command.exec policy) m (limit + 1) (.amid x)) :
    ∃ e, Halts (move policy (some limit)) (start p m 0) e ∧ e.1 = some (.stepLimit limit) := by
  obtain ⟨w, leads, -, steps⟩ := follows h [] 0
  exact (limited policy limit).over_of_leads leads (Nat.zero_le _) (by omega)

/-- A read that fails is counted, so it can be one step too many. -/
theorem over_of_exhausted {x : Machine}
    (h : p.Reaches (Command.exec policy) m limit (.settled (.exhausted x))) :
    ∃ e, Halts (move policy (some limit)) (start p m 0) e ∧ e.1 = some (.stepLimit limit) := by
  obtain ⟨e, halts, -, -, steps⟩ := follows h [] 0
  exact (limited policy limit).over_of_halts halts (Nat.zero_le _) (by omega)

theorem halts_within {n : Nat} {o : Outcome}
    (h : p.Reaches (Command.exec policy) m n (.settled o)) (le : n ≤ limit)
    (unlike : ∀ x, o = .exhausted x → n ≠ limit) :
    ∃ e, Halts (move policy (some limit)) (start p m 0) e ∧ Reports 0 n o e := by
  obtain ⟨e, halts, reports⟩ := walker_halts_of_reaches h 0
  refine ⟨e, (limited policy limit).halts halts ?_, reports⟩
  cases o with
  | ended x =>
    cases reports
    show 0 + n ≤ limit
    omega
  | exhausted x =>
    have steps : e.2.steps = 0 + n + 1 := reports.2.2
    have := unlike x rfl
    omega

end Walker

/-! ### Runs of flat code -/

namespace Runner
variable {f : Flat} {policy : EndOfInput} {m : Machine} {limit : Nat}

theorem advance_of_free {limit : Option Int} {r : Runner} (free : exceeded? limit r.steps = none) :
    advance f policy limit r = advance f policy none r := by
  have same : exceeded? none r.steps = none := rfl
  simp only [advance, free, same]

theorem rises : Rises (advance f policy none) Runner.steps (·.2.steps) := fun r => by
  cases h : advance f policy none r with
  | inl r' => exact (advance_inl h).1
  | inr e => exact Nat.le_of_eq (congrArg Runner.steps (advance_inr h).symm)

variable (f policy limit) in
/-- **A run of flat code under a limit is the run without one, as long as it counts no further.** -/
theorem limited : Limited (advance f policy (some limit)) (advance f policy none) Runner.steps
    (·.2.steps) limit (·.1 = some (.stepLimit limit)) where
  rises := rises
  within {r} le := advance_of_free (exceeded?_of_le (Int.ofNat_le.2 (Nat.le_trans (rises r) le)))
  beyond {r} le gt := by
    have same : advance f policy (some limit) r = advance f policy none r :=
      advance_of_free (exceeded?_of_le (Int.ofNat_le.2 le))
    cases h : advance f policy none r with
    | inl r' =>
      rw [h] at gt
      have stop : Halts (advance f policy (some limit)) r' (some (.stepLimit limit), r') :=
        .stop (advance_of_exceeded (exceeded?_of_lt (Int.ofNat_lt.2 gt)))
      exact ⟨_, stop.before (.single (same.trans h)), rfl⟩
    | inr e =>
      rw [h] at gt
      have unchanged : e.2.steps = r.steps := congrArg Runner.steps (advance_inr h)
      exact absurd gt (by simpa [unchanged] using le)

section
variable {c : Packed} (holds : f.Holds c 0 f.size)
include holds

theorem over_of_amid {x : Machine} (h : c.Reaches (Op.exec policy) m (limit + 1) (.amid x))
    (fits : c.StaysFor (Op.exec policy) Machine.Fits (limit + 1) m) :
    ∃ e, Halts (advance f policy (some limit)) { machine := m } e ∧
      e.1 = some (.stepLimit limit) := by
  obtain ⟨r, leads, -, steps⟩ := follows h holds fits 0
  exact (limited f policy limit).over_of_leads leads (Nat.zero_le _) (by omega)

theorem halts_within {n : Nat} {o : Outcome} (h : c.Reaches (Op.exec policy) m n (.settled o))
    (le : n ≤ limit) (fits : c.StaysFor (Op.exec policy) Machine.Fits n m) :
    ∃ e, Halts (advance f policy (some limit)) { machine := m } e ∧ Reports f (0 + n) o e := by
  obtain ⟨e, halts, reports⟩ := (follows h holds fits 0).halts fun _ => advance_end (0 + n)
  have steps : e.2.steps = n := by
    cases o with
    | ended x =>
      cases reports
      exact Nat.zero_add n
    | exhausted x => exact reports.2.2.trans (Nat.zero_add n)
  exact ⟨e, (limited f policy limit).halts halts (steps ▸ le),
    reports.imp fun _ _ failed => ⟨failed.1, failed.2.1⟩⟩

end

end Runner

/-! ### Backends -/

/-- A text run by one of the backends with a limit, as it is. -/
def runWithin (source : Text) (input : List UInt8) (policy : Scalar) (limit : Nat) (b : Backend)
    (fuel : Nat) : Option (Except Error Machine) :=
  runSource fuel { policy, limit := some limit, backend := .text b.word, level := .int 0 } source
    input

/-- A number of steps leads to a read that fails. -/
def Program.FailsAfter (policy : EndOfInput) (p : Program) (m : Machine) (steps : Nat) : Prop :=
  ∃ x, p.Reaches (Command.exec policy) m steps (.settled (.exhausted x))

theorem misfit?_of_limit (limit : Nat) (input : List UInt8) :
    Runner.misfit? defaultBatchSteps (some limit) { machine := { unread := input } } = none := by
  have allowed : fitsWord (Runner.allowance defaultBatchSteps (some limit) 0) = true := by
    have room : 0 ≤ Runner.allowance defaultBatchSteps (some limit) 0 ∧
        Runner.allowance defaultBatchSteps (some limit) 0 ≤ 1000000 := by
      simp only [Runner.allowance, defaultBatchSteps]
      omega
    simp only [fitsWord, Bool.and_eq_true, decide_eq_true_eq]
    omega
  simp only [Runner.misfit?, Batch.misfit?, List.find?, allowed]
  rfl

section
variable {source : Text} {p : Program} {word : Scalar} {policy : EndOfInput} {limit : Nat}
  {input : List UInt8} (parses : Program.parse source = .ok p)
  (named : EndOfInput.ofScalar? word = some policy)
include parses named

theorem runWithin_interpret (fuel : Nat) :
    runWithin source input word limit .interpret fuel =
      ((Walker.start p { unread := input } 0).run policy (some limit) fuel).map
        fun e => finished e.1 e.2.machine :=
  runSource_interpret parses named (some limit) fuel

theorem runWithin_batches {f : Flat} (lowered : (Packed.ofProgram p).lower? = some f)
    (fuel : Nat) :
    runWithin source input word limit .batches fuel =
      (Runner.run f policy defaultBatchSteps (some limit) fuel
        { machine := { unread := input } }).map fun e => finished e.1 e.2.machine :=
  -- At level zero no pass is applied, so the packed code is the program as it is.
  runSource_batches parses named (show (Packed.optimize 0 p).lower? = some f from lowered)
    (misfit?_of_limit limit input) fuel

theorem settles_interpret {e : Option RunFault × Walker}
    (halts : Halts (Walker.move policy (some limit)) (Walker.start p { unread := input } 0) e) :
    Settles (runWithin source input word limit .interpret) (finished e.1 e.2.machine) := by
  rw [funext (runWithin_interpret parses named)]
  simp only [Walker.run_eq]
  exact halts.settles _

theorem settles_batches {f : Flat} (lowered : (Packed.ofProgram p).lower? = some f)
    {e : Option RunFault × Runner}
    (halts : Halts (Runner.advance f policy (some limit)) { machine := { unread := input } } e) :
    Settles (runWithin source input word limit .batches) (finished e.1 e.2.machine) := by
  rw [funext (runWithin_batches parses named lowered)]
  exact Runner.settles_of_halts (by decide : 1 ≤ defaultBatchSteps) halts _

end

/-- **A walk and a run in batches end in the same way under a limit, except where as many steps as
the limit allows lead to a read that fails.** Both have a result: the machine that the program
leaves, that the limit was exceeded, or that the input was exhausted at a cell. It is the same
result, unless just after the last step that the limit allows a byte is wanted which is not there:
then the walk has exceeded the limit, and the run in batches has exhausted the input. -/
theorem limited_runs {source : Text} {p : Program} {word : Scalar} {policy : EndOfInput}
    {input : List UInt8} {limit : Nat} (parses : Program.parse source = .ok p)
    (named : EndOfInput.ofScalar? word = some policy) (short : fitsWord (2 * p.size : Nat) = true)
    (fits : p.StaysFor (Command.exec policy) Machine.Fits (limit + 1) { unread := input }) :
    ∃ walked batched : Except Error Machine,
      Settles (runWithin source input word limit .interpret) walked ∧
      Settles (runWithin source input word limit .batches) batched ∧
      ((∃ m, walked = .ok m) ∨ walked = .error (.run (.stepLimit limit)) ∨
        ∃ cell, walked = .error (.run (.inputExhausted cell))) ∧
      (¬ p.FailsAfter policy { unread := input } limit → batched = walked) ∧
      (p.FailsAfter policy { unread := input } limit →
        walked = .error (.run (.stepLimit limit)) ∧
          ∃ cell, batched = .error (.run (.inputExhausted cell))) := by
  obtain ⟨f, lowered⟩ := Packed.lower_optimize 0 short
  have holds := Flat.holds_of_lower (Packed.isPacked_optimize 0 p) lowered
  have fits : (Packed.ofProgram p).StaysFor (Op.exec policy) Machine.Fits (limit + 1)
      { unread := input } := fun k le x hx => fits k le x (Packed.reaches_ofProgram.1 hx)
  by_cases fails : p.FailsAfter policy { unread := input } limit
  · obtain ⟨x, reaches⟩ := fails
    obtain ⟨⟨_, w⟩, walked, rfl⟩ := Walker.over_of_exhausted reaches
    obtain ⟨e, batched, reports⟩ := Runner.halts_within holds (Packed.reaches_ofProgram.2 reaches)
      (Nat.le_refl limit) (fits.mono (Nat.le_succ limit))
    exact ⟨_, _, settles_interpret parses named walked,
      settles_batches parses named lowered batched, .inr (.inl rfl),
      fun free => absurd ⟨x, reaches⟩ free,
      fun _ => ⟨rfl, x.tape.cursor, finished_of_runner reports⟩⟩
  · rcases Code.past_or_over (Command.exec policy) limit p { unread := input } with
      ⟨x, past⟩ | ⟨n, le, o, ending⟩
    · obtain ⟨⟨_, w⟩, walked, rfl⟩ := Walker.over_of_amid past
      obtain ⟨⟨_, r⟩, batched, rfl⟩ :=
        Runner.over_of_amid holds (Packed.reaches_ofProgram.2 past) fits
      exact ⟨_, _, settles_interpret parses named walked,
        settles_batches parses named lowered batched, .inr (.inl rfl), fun _ => rfl,
        fun failed => absurd failed fails⟩
    · have unlike : ∀ x, o = .exhausted x → n ≠ limit := by
        rintro x rfl rfl
        exact fails ⟨x, ending⟩
      obtain ⟨e, walked, walkReports⟩ := Walker.halts_within ending le unlike
      obtain ⟨e', batched, batchReports⟩ := Runner.halts_within holds
        (Packed.reaches_ofProgram.2 ending) le (fits.mono (Nat.le_succ_of_le le))
      refine ⟨_, _, settles_interpret parses named walked,
        settles_batches parses named lowered batched, ?_, fun _ => ?_,
        fun failed => absurd failed fails⟩
      · rw [finished_of_walker walkReports]
        cases o with
        | ended m => exact .inl ⟨m, rfl⟩
        | exhausted m => exact .inr (.inr ⟨m.tape.cursor, rfl⟩)
      · rw [finished_of_walker walkReports, finished_of_runner batchReports]

theorem stays_commands_copyLeft (unread : List UInt8) :
    Program.copyLeft.Stays (Command.exec policy) Machine.Fits { unread } :=
  Program.stays_of_fitsAlong rfl

/-- Nine steps after the start, two bytes have been copied and a third is wanted. -/
theorem limited_runs_copyLeft :
    Settles (runWithin "<<<,[.,]" [7, 5] (.text "error") 9 .interpret)
      (.error (.run (.stepLimit 9))) ∧
    ∃ cell, Settles (runWithin "<<<,[.,]" [7, 5] (.text "error") 9 .batches)
      (.error (.run (.inputExhausted cell))) := by
  have named : EndOfInput.ofScalar? (.text "error") = some .error := by decide
  obtain ⟨walked, batched, walk, batch, -, -, differ⟩ := limited_runs parse_copyLeft named
    (by decide) ((stays_commands_copyLeft [7, 5]).staysFor 10)
  have fails : Program.copyLeft.FailsAfter .error { unread := [7, 5] } 9 :=
    ⟨_, .leaf rfl <| .leaf rfl <| .leaf rfl <| .leaf rfl <|
      .again (by decide) (.leaf rfl <| .leaf rfl <| .nil _) <|
      .inside (by decide) (.leaf rfl <| .exhausted rfl) id⟩
  obtain ⟨rfl, cell, rfl⟩ := differ fails
  exact ⟨walk, cell, batch⟩

/-- Where no step is allowed, a read that fails exceeds the limit on one way and not on the
other. -/
theorem limits_differ :
    runWithin "," [] (.text "error") 0 .interpret 2 = some (.error (.run (.stepLimit 0))) ∧
    runWithin "," [] (.text "error") 0 .batches 3 =
      some (.error (.run (.inputExhausted 0))) := by
  have parses : Program.parse "," = .ok (.leaf .input .nil) := rfl
  have named : EndOfInput.ofScalar? (.text "error") = some .error := by decide
  have single : Packed.ofProgram (.leaf .input .nil) = .leaf (.plain .input) .nil :=
    Packed.optimize_eq 0 _
  constructor
  · rw [runWithin_interpret parses named]
    rfl
  · rw [runWithin_batches parses named ((congrArg Packed.lower? single).trans rfl)]
    rfl

end TapeLang
