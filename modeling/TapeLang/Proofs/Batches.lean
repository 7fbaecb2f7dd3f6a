import TapeLang.Proofs.Course
import TapeLang.Run

/-! Batches do not show.

A runner takes slots in batches, but what it comes to is what it would come to one slot at a time.
`Runner.advance` is that one slot: it executes the slot or, where the cell is not stored, makes it
stored and leaves the slot for the next time, and it looks at the limit first. A batch is some such
transitions in a row, and so is a batch with its service, which is one transition at least
(`turn_spec`). Runs in batches of any size therefore stop exactly where `Runner.advance` does, with
the same machine, position and steps (`run_iff_halts`), so that two sizes give one result. A whole
run looks at the numbers that it starts with before that: one of them that does not fit into a
word stops it at once (`batch_of_misfit`), and else it comes to what the batches come to
(`batch_iff_halts`). -/
namespace TapeLang
open Course (Goes Leads Halts Settles)
open Relation (TransGen)

namespace Batch

/-- What a step can come to, whatever steps were taken before: it is counted, or the batch stops
as it is. -/
def Uniform (tape : Tape) (position : Int) (next : Nat → Next) : Prop :=
  (∃ tape' position', ∀ steps, next steps = .running ⟨tape', position', steps + 1⟩) ∨
    ∃ reason, ∀ steps, next steps = .stopped reason ⟨tape, position, steps⟩

theorem uniform_withArg {f : Flat} {tape : Tape} {position : Int} {next : Int64 → Nat → Next}
    (h : ∀ arg, Uniform tape position (next arg)) :
    Uniform tape position fun steps =>
      withArg f ⟨tape, position, steps⟩ fun arg => next arg steps := by
  cases harg : f.arg? position with
  | none => exact .inr ⟨.astray, fun steps => by simp only [withArg, harg]⟩
  | some arg =>
    have same : (fun steps => withArg f ⟨tape, position, steps⟩ fun arg => next arg steps) =
        next arg := by
      funext steps
      simp only [withArg, harg]
    rw [same]
    exact h arg

theorem uniform_act (f : Flat) (op : Option Opcode) (slot : Nat) (value : UInt8) (tape : Tape)
    (position : Int) :
    Uniform tape position fun steps => act f op slot value ⟨tape, position, steps⟩ := by
  obtain ⟨cells, originOffset, cursor⟩ := tape
  have forward : Uniform ⟨cells, originOffset, cursor⟩ position fun steps =>
      .running (Batch.forward ⟨⟨cells, originOffset, cursor⟩, position, steps⟩) :=
    .inl ⟨_, _, fun _ => rfl⟩
  have jump : Uniform ⟨cells, originOffset, cursor⟩ position fun steps =>
      withArg f ⟨⟨cells, originOffset, cursor⟩, position, steps⟩ fun arg =>
        .running (Batch.jump arg ⟨⟨cells, originOffset, cursor⟩, position, steps⟩) :=
    uniform_withArg fun arg => .inl ⟨_, _, fun _ => rfl⟩
  match op with
  | none => exact forward
  | some .move => exact forward
  | some .add => exact uniform_withArg fun arg => .inl ⟨_, _, fun _ => rfl⟩
  | some .clear => exact .inl ⟨_, _, fun _ => rfl⟩
  | some .output => exact .inr ⟨_, fun _ => rfl⟩
  | some .input => exact .inr ⟨_, fun _ => rfl⟩
  | some .jumpIfZero =>
    by_cases zero : value = 0
    · simpa only [act, zero, if_true] using jump
    · simpa only [act, zero, if_false] using forward
  | some .jumpIfNonzero =>
    by_cases zero : value = 0
    · simpa only [act, zero, if_true] using forward
    · simpa only [act, zero, if_false] using jump

theorem step_of_not_move {f : Flat} {b : Batch} {code : Int64} (hop : f.op? b.position = some code)
    (other : Opcode.ofCode? code ≠ some .move) :
    b.step f = if 0 ≤ index b.tape ∧ index b.tape < b.tape.size then
      act f (Opcode.ofCode? code) (index b.tape).toNat
        (b.tape.cells.getD (index b.tape).toNat 0) b
    else .stopped .grow b := by
  simp only [step, hop]

theorem uniform_step (f : Flat) (tape : Tape) (position : Int) :
    Uniform tape position fun steps => step f ⟨tape, position, steps⟩ := by
  cases hop : f.op? position with
  | none => exact .inr ⟨.astray, fun _ => by simp only [step, hop]⟩
  | some code =>
    by_cases move : Opcode.ofCode? code = some .move
    · simp only [step, hop, move]
      exact uniform_withArg fun arg => .inl ⟨_, _, fun _ => rfl⟩
    · have other : ∀ steps, step f ⟨tape, position, steps⟩ = _ :=
        fun steps => step_of_not_move (b := ⟨tape, position, steps⟩) hop move
      simp only [other]
      split
      · exact uniform_act f _ _ _ tape position
      · exact .inr ⟨.grow, fun _ => rfl⟩

end Batch

namespace Runner

/-- What a turn comes to, with what it stops with as one result. -/
def Next.asSum : Next → Runner ⊕ (Option RunFault × Runner)
  | running r => .inl r
  | stopped fault r => .inr (fault, r)

/-- The runner after a batch that it has started. -/
def resumed (r : Runner) (b : Batch) : Runner :=
  ⟨{ r.machine with tape := b.tape }, b.position, r.steps + b.steps⟩

theorem resumed_resumed (r : Runner) (tape tape' : Tape) (position position' : Int)
    (steps more : Nat) :
    (r.resumed ⟨tape, position, steps⟩).resumed ⟨tape', position', more⟩ =
      r.resumed ⟨tape', position', steps + more⟩ := by
  simp only [resumed, Nat.add_assoc]

/-- One slot, or making its cell stored. -/
def advance (f : Flat) (policy : EndOfInput) (limit : Option Int) (r : Runner) :
    Runner ⊕ (Option RunFault × Runner) :=
  match exceeded? limit r.steps with
  | some limit => .inr (some (.stepLimit limit), r)
  | none =>
    if f.size ≤ r.position then .inr (none, r)
    else
      match Batch.step f ⟨r.machine.tape, r.position, 0⟩ with
      | .running b => .inl (r.resumed b)
      | .stopped stop _ => (serve policy none stop r).asSum

variable {f : Flat} {policy : EndOfInput} {limit : Option Int}

/-! ### One transition -/

theorem advance_of_exceeded {r : Runner} {l : Int} (h : exceeded? limit r.steps = some l) :
    advance f policy limit r = .inr (some (.stepLimit l), r) := by
  simp only [advance, h]

theorem advance_past {r : Runner} (free : exceeded? limit r.steps = none)
    (past : (f.size : Int) ≤ r.position) : advance f policy limit r = .inr (none, r) := by
  simp only [advance, free, if_pos past]

theorem advance_running {r : Runner} {b : Batch} (free : exceeded? limit r.steps = none)
    (inside : ¬ (f.size : Int) ≤ r.position)
    (h : Batch.step f ⟨r.machine.tape, r.position, 0⟩ = .running b) :
    advance f policy limit r = .inl (r.resumed b) := by
  simp only [advance, free, if_neg inside, h]

theorem advance_stopped {r : Runner} {stop : Stop} {b : Batch}
    (free : exceeded? limit r.steps = none) (inside : ¬ (f.size : Int) ≤ r.position)
    (h : Batch.step f ⟨r.machine.tape, r.position, 0⟩ = .stopped stop b) :
    advance f policy limit r = (serve policy none stop r).asSum := by
  simp only [advance, free, if_neg inside, h]

/-! ### Batches -/

variable (policy) in
/-- A batch is some transitions in a row, and unless it has run out of steps the next transition
is what it stopped for. -/
theorem leads_of_run {r : Runner} {budget : Nat} {b b' : Batch} {stop : Stop}
    (allowed : ∀ j < budget, exceeded? limit (r.steps + b.steps + j) = none)
    (h : Batch.run f budget b = (stop, b')) :
    Leads (advance f policy limit) (r.resumed b) (r.resumed b') ∧
      (stop = .budget ∧ b'.steps = b.steps + budget ∨
        (exceeded? limit (r.resumed b').steps = none →
          advance f policy limit (r.resumed b') =
            (serve policy none stop (r.resumed b')).asSum)) := by
  induction budget generalizing b with
  | zero =>
    unfold Batch.run at h
    split at h
    · next past =>
      cases h
      exact ⟨.refl, .inr fun free => advance_past free past⟩
    · cases h
      exact ⟨.refl, .inl ⟨rfl, rfl⟩⟩
  | succ budget ih =>
    unfold Batch.run at h
    split at h
    · next past =>
      cases h
      exact ⟨.refl, .inr fun free => advance_past free past⟩
    · next inside =>
      obtain ⟨tape, position, steps⟩ := b
      rcases Batch.uniform_step f tape position with ⟨tape', position', hstep⟩ | ⟨reason, hstep⟩
      · simp only [hstep] at h
        have goes : Goes (advance f policy limit) (r.resumed ⟨tape, position, steps⟩) _ :=
          advance_running (allowed 0 (Nat.succ_pos _)) inside (hstep 0)
        rw [resumed_resumed] at goes
        have allowed' : ∀ j < budget, exceeded? limit (r.steps + (steps + 1) + j) = none := by
          intro j hj
          rw [show r.steps + (steps + 1) + j = r.steps + steps + (j + 1) by omega]
          exact allowed (j + 1) (by omega)
        obtain ⟨leads, stopped⟩ := ih allowed' h
        refine ⟨leads.head goes, stopped.imp_left fun ⟨stop, count⟩ => ⟨stop, ?_⟩⟩
        rw [count]
        show steps + 1 + budget = steps + (budget + 1)
        omega
      · simp only [hstep] at h
        cases h
        exact ⟨.refl, .inr fun free => advance_stopped free inside (hstep 0)⟩

/-! ### Turns -/

/-- The limit is looked at once more after a service. -/
theorem serve_eq (stop : Stop) (r : Runner) :
    serve policy limit stop r =
      match serve policy none stop r with
      | .running r => checked limit r
      | next => next := by
  cases stop with
  | ended => rfl
  | output => rfl
  | grow => rfl
  | budget => rfl
  | astray => rfl
  | input =>
    simp only [serve]
    cases r.machine.input policy with
    | ended m => rfl
    | exhausted m => rfl

theorem exceeded?_eq_none_iff {limit : Option Int} {steps : Nat} :
    exceeded? limit steps = none ↔ ∀ l, limit = some l → (steps : Int) ≤ l := by
  cases limit with
  | none => exact ⟨fun _ _ h => (nomatch h), fun _ => rfl⟩
  | some l => simp [exceeded?, Option.filter]

theorem budget_of_exceeded (batchSteps : Int) {steps : Nat} {l : Int}
    (h : exceeded? limit steps = some l) : budget batchSteps limit steps = 0 := by
  have beyond : ¬ ∀ l, limit = some l → (steps : Int) ≤ l :=
    fun le => nomatch h.symm.trans (exceeded?_eq_none_iff.2 le)
  cases limit with
  | none => exact nomatch h
  | some l' =>
    simp only [Option.some.injEq, forall_eq', Int.not_le] at beyond
    simp only [budget, allowance]
    omega

theorem allowed_of_lt_budget {batchSteps : Int} {steps j : Nat}
    (h : j < budget batchSteps limit steps) : exceeded? limit (steps + j) = none := by
  rw [exceeded?_eq_none_iff]
  rintro l rfl
  simp only [budget, allowance] at h
  omega

theorem budget_pos {batchSteps : Int} (hb : 1 ≤ batchSteps) {steps : Nat}
    (free : exceeded? limit steps = none) : 0 < budget batchSteps limit steps := by
  rw [exceeded?_eq_none_iff] at free
  cases limit with
  | none =>
    simp only [budget, allowance]
    omega
  | some l =>
    have := free l rfl
    simp only [budget, allowance]
    omega

theorem runBatch_eq (r : Runner) (budget : Nat) :
    r.runBatch f budget =
      ((Batch.run f budget ⟨r.machine.tape, r.position, 0⟩).1,
        r.resumed (Batch.run f budget ⟨r.machine.tape, r.position, 0⟩).2) := rfl

/-- A turn whose batch has exceeded the limit serves nothing. -/
theorem turn_of_exceeded {batchSteps : Int} {r r' : Runner} {stop : Stop} {l : Int}
    (ran : r.runBatch f (budget batchSteps limit r.steps) = (stop, r'))
    (h : exceeded? limit r'.steps = some l) :
    r.turn f policy batchSteps limit = .stopped (some (.stepLimit l)) r' := by
  simp only [turn, ran, checked, h]

theorem turn_of_free {batchSteps : Int} {r r' : Runner} {stop : Stop}
    (ran : r.runBatch f (budget batchSteps limit r.steps) = (stop, r'))
    (h : exceeded? limit r'.steps = none) :
    r.turn f policy batchSteps limit = serve policy limit stop r' := by
  simp only [turn, ran, checked, h]

variable (f policy limit) in
/-- A turn is one transition at least, or the runner stops as it says. -/
theorem turn_spec {batchSteps : Int} (hb : 1 ≤ batchSteps) (r : Runner) :
    match (r.turn f policy batchSteps limit).asSum with
    | .inl r' => TransGen (Goes (advance f policy limit)) r r'
    | .inr e => Halts (advance f policy limit) r e := by
  cases hr : exceeded? limit r.steps with
  | some l =>
    have still : (Batch.run f 0 ⟨r.machine.tape, r.position, 0⟩).2 =
        ⟨r.machine.tape, r.position, 0⟩ := by
      unfold Batch.run
      split <;> rfl
    have same : r.resumed ⟨r.machine.tape, r.position, 0⟩ = r := rfl
    have ran : r.runBatch f (budget batchSteps limit r.steps) =
        ((Batch.run f 0 ⟨r.machine.tape, r.position, 0⟩).1, r) := by
      rw [runBatch_eq, budget_of_exceeded batchSteps hr, still, same]
    rw [turn_of_exceeded ran hr]
    exact .stop (advance_of_exceeded hr)
  | none =>
    generalize hbudget : budget batchSteps limit r.steps = steps
    rcases hrun : Batch.run f steps ⟨r.machine.tape, r.position, 0⟩ with ⟨stop, b⟩
    have ran : r.runBatch f (budget batchSteps limit r.steps) = (stop, r.resumed b) := by
      rw [runBatch_eq, hbudget, hrun]
    have allowed : ∀ j < steps, exceeded? limit (r.steps + 0 + j) = none :=
      fun j hj => allowed_of_lt_budget (hbudget ▸ hj)
    obtain ⟨leads, stopped⟩ := leads_of_run policy allowed hrun
    cases hb' : exceeded? limit (r.resumed b).steps with
    | some l =>
      rw [turn_of_exceeded ran hb']
      exact .before leads (.stop (advance_of_exceeded hb'))
    | none =>
      rw [turn_of_free ran hb', serve_eq]
      rcases stopped with ⟨rfl, count⟩ | stopped
      · -- The batch has taken all its steps, of which there is one at least.
        have served : serve policy none .budget (r.resumed b) = .running (r.resumed b) := rfl
        simp only [served, checked, hb', Next.asSum]
        rcases Relation.reflTransGen_iff_eq_or_transGen.1 leads with same | some_goes
        · have := congrArg Runner.steps same
          have := budget_pos hb hr
          simp only [resumed] at *
          omega
        · exact some_goes
      · cases hserve : serve policy none stop (r.resumed b) with
        | stopped fault r' =>
          exact .before leads (.stop ((stopped hb').trans (congrArg Next.asSum hserve)))
        | running r' =>
          have goes : TransGen (Goes (advance f policy limit)) r r' :=
            .tail' leads ((stopped hb').trans (congrArg Next.asSum hserve))
          cases hr' : exceeded? limit r'.steps with
          | none =>
            simp only [checked, hr']
            exact goes
          | some l =>
            simp only [checked, hr']
            exact .before goes.to_reflTransGen (.stop (advance_of_exceeded hr'))

theorem run_eq (batchSteps : Int) (fuel : Nat) (r : Runner) :
    r.run f policy batchSteps limit fuel =
      Course.run (fun r => (turn f policy batchSteps limit r).asSum) fuel r := by
  induction fuel generalizing r with
  | zero => rfl
  | succ fuel ih =>
    rw [run, Course.run]
    cases r.turn f policy batchSteps limit with
    | running r => exact ih r
    | stopped fault r => rfl

/-- **A run in batches stops as the run slot by slot does**, whatever the size of the batches. -/
theorem run_iff_halts {batchSteps : Int} (hb : 1 ≤ batchSteps) {r : Runner}
    {e : Option RunFault × Runner} :
    (∃ fuel, r.run f policy batchSteps limit fuel = some e) ↔
      Halts (advance f policy limit) r e := by
  simp only [run_eq]
  rw [Course.exists_run_iff]
  refine Course.halts_iff_of_coarser (fun r r' goes => ?_) (fun r e stop => ?_)
  · have spec := turn_spec f policy limit hb r
    rw [goes] at spec
    exact spec
  · have spec := turn_spec f policy limit hb r
    rw [stop] at spec
    exact spec

/-- A run that stops slot by slot settles in batches, whatever is looked at of what it leaves. -/
theorem settles_of_halts {ρ : Type} {batchSteps : Int} (hb : 1 ≤ batchSteps) {r : Runner}
    {e : Option RunFault × Runner} (halts : Halts (advance f policy limit) r e)
    (view : Option RunFault × Runner → ρ) :
    Settles (fun fuel => (r.run f policy batchSteps limit fuel).map view) (view e) := by
  obtain ⟨fuel, ran⟩ := (run_iff_halts hb).2 halts
  simp only [run_eq] at ran ⊢
  exact (Course.halts_of_run ran).settles view

end Runner

/-! ### Whole runs -/

/-- What is told of a run of flat code that stops. -/
def Ran.ofRunner (f : Flat) (known : Nat) (e : Option RunFault × Runner) : Ran where
  fault? := e.1
  machine := e.2.machine
  steps := e.2.steps
  position := e.2.position
  notices := .batching f.size :: growthNotices known e.2.machine ++
    match e.1 with
    | none => [Notice.batched e.2.steps e.2.machine.tape]
    | some _ => []

def Ran.runner (ran : Ran) : Runner := ⟨ran.machine, ran.position, ran.steps⟩

section
variable {f : Flat} {policy : EndOfInput} {limit : Option Int} {r : Runner} {batchSteps : Int}

/-- A run that is given a number that does not fit into a word is over before its first batch. -/
theorem batch_of_misfit {number : Int} (misfit : r.misfit? batchSteps limit = some number)
    (fuel : Nat) :
    batch fuel policy batchSteps limit f r =
      some (Ran.ofRunner f r.machine.growths.size (some (.tooWide number), r)) := by
  simp only [batch, misfit]
  rfl

theorem batch_eq_map (words : r.misfit? batchSteps limit = none) (fuel : Nat) :
    batch fuel policy batchSteps limit f r =
      (r.run f policy batchSteps limit fuel).map (Ran.ofRunner f r.machine.growths.size) := by
  simp only [batch, words]
  cases r.run f policy batchSteps limit fuel <;> rfl

theorem batch_of_le {fuel fuel' : Nat} (le : fuel ≤ fuel') {ran : Ran}
    (run : batch fuel policy batchSteps limit f r = some ran) :
    batch fuel' policy batchSteps limit f r = some ran := by
  cases words : r.misfit? batchSteps limit with
  | some number => rwa [batch_of_misfit words] at run ⊢
  | none =>
    simp only [batch_eq_map words, Runner.run_eq, Option.map_eq_some_iff] at run ⊢
    obtain ⟨e, run, told⟩ := run
    exact ⟨e, Course.run_of_le le run, told⟩

/-- A run has one result at most. -/
theorem batch_unique {fuel fuel' : Nat} {ran ran' : Ran}
    (run : batch fuel policy batchSteps limit f r = some ran)
    (run' : batch fuel' policy batchSteps limit f r = some ran') : ran = ran' := by
  rcases Nat.le_total fuel fuel' with le | le
  · exact Option.some.inj ((batch_of_le le run).symm.trans run')
  · exact Option.some.inj (run.symm.trans (batch_of_le le run'))

variable (words : r.misfit? batchSteps limit = none) (hb : 1 ≤ batchSteps)
include words hb

/-- **A whole run stops as the run slot by slot does**, where the numbers fit that it starts
with. -/
theorem batch_iff_halts {ran : Ran} :
    (∃ fuel, batch fuel policy batchSteps limit f r = some ran) ↔
      ∃ e, Halts (Runner.advance f policy limit) r e ∧
        Ran.ofRunner f r.machine.growths.size e = ran := by
  simp only [batch_eq_map words, Option.map_eq_some_iff]
  constructor
  · rintro ⟨fuel, e, ran, rfl⟩
    exact ⟨e, (Runner.run_iff_halts hb).1 ⟨fuel, ran⟩, rfl⟩
  · rintro ⟨e, halts, rfl⟩
    obtain ⟨fuel, ran⟩ := (Runner.run_iff_halts hb).2 halts
    exact ⟨fuel, e, ran, rfl⟩

theorem settles_batch_of_halts {e : Option RunFault × Runner}
    (halts : Halts (Runner.advance f policy limit) r e) :
    Settles (fun fuel => batch fuel policy batchSteps limit f r)
      (Ran.ofRunner f r.machine.growths.size e) := by
  simp only [batch_eq_map words]
  exact Runner.settles_of_halts hb halts _

end

end TapeLang
