import TapeLang.Proofs.Batches
import TapeLang.Proofs.FlatRuns

/-! Flat code runs inside its slots and inside the window.

A batch looks up words of the code and bytes of the window by index. One that looks up nothing but
what is there (`Batch.checkedRun?`) has no result as soon as an index is out of bounds; on lowered
code it always has one, which is that of the batch (`run_of_closed`). Jumps of lowered code go to
slots, or just past the last one (`closed_of_lower`), so a position inside the code stays there from
step to step, and from turn to turn whatever a turn stops for (`covers_of_reachable`). This needs
nothing of the window: an index is compared with its size before it is used. -/
namespace TapeLang

/-- Whether an operation can go elsewhere than to the next slot. -/
def Opcode.isJump : Opcode → Bool
  | jumpIfZero => true
  | jumpIfNonzero => true
  | _ => false

/-- What stands in a row at an index, if the row has that index. -/
def element? {α : Type} (row : Array α) (index : Int) : Option α :=
  if 0 ≤ index then row[index.toNat]? else none

theorem element?_natCast {α : Type} (row : Array α) (p : Nat) : element? row p = row[p]? := by
  rw [element?, if_pos (Int.natCast_nonneg p), Int.toNat_natCast]

namespace Flat

/-- A position is that of a slot or just past the last one. -/
def Covers (f : Flat) (position : Int) : Prop := 0 ≤ position ∧ position ≤ f.size

/-- Every slot has an operand, and the operand of a jump is a position inside the code. -/
structure Closed (f : Flat) : Prop where
  aligned : f.Aligned
  jumps : ∀ {position : Int} {code arg : Int64} {op : Opcode}, element? f.ops position = some code →
    Opcode.ofCode? code = some op → op.isJump = true → element? f.args position = some arg →
    f.Covers arg.toInt

/-! ### Lowered code -/

theorem isJump_slotOf {op : Op} {slot : Slot} (h : slotOf op = some slot) :
    slot.1.isJump = false := by
  unfold slotOf at h
  split at h <;> cases h <;> rfl

/-- Jumps of assembled code stay inside it or go to its end. -/
theorem jumps_assemble (c : Packed) (start : Nat) :
    ∀ slot ∈ assemble start c, slot.1.isJump = true →
      0 ≤ slot.2 ∧ slot.2 ≤ (start + (assemble start c).length : Nat) := by
  induction c generalizing start with
  | nil => exact fun _ h => nomatch h
  | leaf op rest ih =>
    cases hs : slotOf op with
    | none =>
      simp only [assemble, hs]
      exact ih start
    | some slot =>
      simp only [assemble, hs, List.length_cons]
      intro other mem jump
      rcases List.mem_cons.1 mem with rfl | mem
      · exact absurd jump (by simp [isJump_slotOf hs])
      · have := ih (start + 1) other mem jump
        omega
  | loop body rest ihb ihr =>
    simp only [assemble, List.length_cons, List.length_append]
    intro slot mem jump
    rcases List.mem_cons.1 mem with rfl | mem
    · dsimp only
      omega
    rcases List.mem_append.1 mem with mem | mem
    · have := ihb (start + 1) slot mem jump
      omega
    rcases List.mem_cons.1 mem with rfl | mem
    · dsimp only
      omega
    · have := ihr _ slot mem jump
      omega

/-- Code has at most the slots of its operations and two for each loop. -/
theorem length_assemble_le (c : Packed) (start : Nat) : (assemble start c).length ≤ c.slots := by
  induction c generalizing start with
  | nil => exact Nat.le_refl 0
  | leaf op rest ih =>
    cases hs : slotOf op with
    | none =>
      simp only [assemble, hs, Packed.slots]
      exact Nat.le_succ_of_le (ih start)
    | some slot =>
      simp only [assemble, hs, List.length_cons, Packed.slots]
      exact Nat.succ_le_succ (ih (start + 1))
  | loop body rest ihb ihr =>
    have := ihb (start + 1)
    have := ihr (start + 1 + (assemble (start + 1) body).length + 1)
    simp only [assemble, List.length_cons, List.length_append, Packed.slots]
    omega

/-- The two words at an index are those of one slot. -/
theorem exists_slot {slots : List Slot} {position : Int} {code arg : Int64}
    (hop : element? (append {} slots).ops position = some code)
    (harg : element? (append {} slots).args position = some arg) :
    ∃ slot ∈ slots, slot.1.code = code ∧ .ofInt slot.2 = arg := by
  by_cases nonneg : 0 ≤ position
  · simp only [element?, if_pos nonneg, append, Array.empty_append, List.getElem?_toArray,
      List.getElem?_map, Option.map_eq_some_iff] at hop harg
    obtain ⟨slot, here, rfl⟩ := hop
    obtain ⟨slot', here', rfl⟩ := harg
    cases here.symm.trans here'
    exact ⟨slot, List.mem_of_getElem? here, rfl, rfl⟩
  · simp only [element?, if_neg nonneg, reduceCtorEq] at hop

/-- **Lowered code has operands for all slots and no jump out of it.** -/
theorem closed_of_lower {c : Packed} {f : Flat} (h : c.lower? = some f) : f.Closed := by
  rw [lower?_eq] at h
  split at h
  · next fits =>
    cases h
    rw [Bool.and_eq_true] at fits
    have words := fits_assemble fits.1 0 (by simpa using fits.2)
    refine ⟨Aligned.append (f := {}) rfl _, fun hop known jump harg => ?_⟩
    obtain ⟨slot, mem, rfl, rfl⟩ := exists_slot hop harg
    cases (Opcode.ofCode?_code slot.1).symm.trans known
    have target := jumps_assemble c 0 slot mem jump
    rw [toInt_ofInt (words slot mem)]
    simpa [Covers, size, append] using target
  · cases h

variable {f : Flat} {position : Int}

/-- Where a slot of closed code is, both columns have a word. -/
theorem Closed.words (closed : f.Closed) (covers : f.Covers position)
    (inside : ¬ f.size ≤ position) :
    ∃ code arg, element? f.ops position = some code ∧ element? f.args position = some arg ∧
      f.op? position = some code ∧ f.arg? position = some arg := by
  obtain ⟨p, rfl⟩ := Int.eq_ofNat_of_zero_le covers.1
  have less : p < f.ops.size := Int.ofNat_lt.1 (Int.not_le.1 inside)
  have less' : p < f.args.size := by rwa [show f.args.size = f.ops.size from closed.aligned]
  simp only [element?_natCast, op?, arg?, wordAt?_ofNat]
  exact ⟨f.ops[p], f.args[p], Array.getElem?_eq_getElem less, Array.getElem?_eq_getElem less',
    Array.getElem?_eq_getElem less, Array.getElem?_eq_getElem less'⟩

end Flat

/-! ### Batches that look up only what is there -/

namespace Batch

/-- The batch with the byte at an index replaced, if the window has that index. -/
def checkedStore? (index : Int) (value : UInt8) (b : Batch) : Option Batch :=
  if 0 ≤ index ∧ index < b.tape.size then some (b.store index.toNat value) else none

/-- A jump to the target that stands at the position. -/
def checkedJump? (f : Flat) (b : Batch) : Option Next := do
  let target ← element? f.args b.position
  return .running (b.jump target)

/-- An operation at a cell, which looks up what it needs. -/
def checkedAct? (f : Flat) (op : Option Opcode) (index : Int) (b : Batch) : Option Next :=
  match op with
  | some .add => do
    let value ← element? b.tape.cells index
    let amount ← element? f.args b.position
    let b ← b.checkedStore? index (value + .ofInt amount.toInt)
    return .running b.forward
  | some .clear => do
    let b ← b.checkedStore? index 0
    return .running b.forward
  | some .output => return .stopped .output b
  | some .input => return .stopped .input b
  | some .jumpIfZero => do
    let value ← element? b.tape.cells index
    if value = 0 then b.checkedJump? f else return .running b.forward
  | some .jumpIfNonzero => do
    let value ← element? b.tape.cells index
    if value = 0 then return .running b.forward else b.checkedJump? f
  | _ => return .running b.forward

/-- One step that looks up what it needs, each time at an index that must be there. -/
def checkedStep? (f : Flat) (b : Batch) : Option Next := do
  let code ← element? f.ops b.position
  match Opcode.ofCode? code with
  | some .move =>
    let distance ← element? f.args b.position
    return .running
      { b with tape.cursor := wrap (b.tape.cursor + distance.toInt) }.forward
  | op =>
    if 0 ≤ index b.tape ∧ index b.tape < b.tape.size then checkedAct? f op (index b.tape) b
    else return .stopped .grow b

/-- A batch that has no result once a step looks up what is not there. -/
def checkedRun? (f : Flat) : Nat → Batch → Option (Stop × Batch)
  | budget, b =>
    if f.size ≤ b.position then some (.ended, b)
    else
      match budget with
      | 0 => some (.budget, b)
      | budget + 1 =>
        match b.checkedStep? f with
        | none => none
        | some (.running b) => checkedRun? f budget b
        | some (.stopped reason b) => some (reason, b)

variable {f : Flat} {b b' : Batch}

theorem element?_cells {t : Tape} {i : Int} (inside : 0 ≤ i ∧ i < t.size) :
    element? t.cells i = some (t.cells.getD i.toNat 0) := by
  have less : i.toNat < t.cells.size := by
    have := inside.2
    simp only [Tape.size] at this
    omega
  rw [element?, if_pos inside.1, Array.getElem?_eq_getElem less, Array.getD_eq_getD_getElem?,
    Array.getElem?_eq_getElem less, Option.getD_some]

theorem checkedAct?_eq {arg : Int64} (here : f.arg? b.position = some arg)
    (here' : element? f.args b.position = some arg) (op : Option Opcode) {i : Int}
    (inside : 0 ≤ i ∧ i < b.tape.size) :
    checkedAct? f op i b = some (act f op i.toNat (b.tape.cells.getD i.toNat 0) b) := by
  have value := element?_cells inside
  have store : ∀ byte, b.checkedStore? i byte = some (b.store i.toNat byte) :=
    fun byte => if_pos inside
  match op with
  | none => rfl
  | some .move => rfl
  | some .output => rfl
  | some .input => rfl
  | some .clear =>
    simp only [checkedAct?, store]
    rfl
  | some .add =>
    simp only [checkedAct?, act, withArg, value, here, here', store]
    rfl
  | some .jumpIfZero =>
    simp only [checkedAct?, checkedJump?, act, withArg, value, here, here', Option.bind_eq_bind,
      Option.bind_some]
    split <;> rfl
  | some .jumpIfNonzero =>
    simp only [checkedAct?, checkedJump?, act, withArg, value, here, here', Option.bind_eq_bind,
      Option.bind_some]
    split <;> rfl

/-- A step at a slot of closed code finds all that it looks up. -/
theorem checkedStep?_eq (closed : f.Closed) (covers : f.Covers b.position)
    (inside : ¬ f.size ≤ b.position) : b.checkedStep? f = some (b.step f) := by
  obtain ⟨code, arg, elementOp, elementArg, op, here⟩ := closed.words covers inside
  by_cases move : Opcode.ofCode? code = some .move
  · simp only [checkedStep?, step, withArg, op, here, elementOp, elementArg, move,
      Option.bind_eq_bind, Option.bind_some]
    rfl
  · rw [step_of_not_move op move]
    simp only [checkedStep?, elementOp, Option.bind_eq_bind, Option.bind_some]
    by_cases window : 0 ≤ index b.tape ∧ index b.tape < b.tape.size
    · simp only [if_pos window, checkedAct?_eq here elementArg _ window]
    · simp only [if_neg window]
      rfl

/-! ### Positions -/

theorem position_of_act {P : Int → Prop} {op : Option Opcode} {slot : Nat} {value : UInt8}
    {arg : Int64} (here : f.arg? b.position = some arg) (next : P (b.position + 1))
    (target : ∀ o, op = some o → o.isJump = true → P arg.toInt)
    (run : act f op slot value b = .running b') : P b'.position := by
  match op with
  | none =>
    cases run
    exact next
  | some .move =>
    cases run
    exact next
  | some .output => cases run
  | some .input => cases run
  | some .clear =>
    cases run
    exact next
  | some .add =>
    simp only [act, withArg, here] at run
    cases run
    exact next
  | some .jumpIfZero =>
    simp only [act, withArg, here] at run
    split at run <;> cases run
    · exact target _ rfl rfl
    · exact next
  | some .jumpIfNonzero =>
    simp only [act, withArg, here] at run
    split at run <;> cases run
    · exact next
    · exact target _ rfl rfl

/-- A step goes to the next slot, or from a jump to its target. -/
theorem position_of_step {P : Int → Prop} {code arg : Int64} (op : f.op? b.position = some code)
    (here : f.arg? b.position = some arg) (next : P (b.position + 1))
    (target : ∀ o, Opcode.ofCode? code = some o → o.isJump = true → P arg.toInt)
    (run : b.step f = .running b') : P b'.position := by
  by_cases move : Opcode.ofCode? code = some .move
  · simp only [step, withArg, op, here, move] at run
    cases run
    exact next
  · rw [step_of_not_move op move] at run
    split at run
    · exact position_of_act here next target run
    · cases run

/-- A step of closed code stays inside it. -/
theorem covers_of_step (closed : f.Closed) (covers : f.Covers b.position)
    (inside : ¬ f.size ≤ b.position) (run : b.step f = .running b') : f.Covers b'.position := by
  obtain ⟨code, arg, elementOp, elementArg, op, here⟩ := closed.words covers inside
  have next : f.Covers (b.position + 1) := ⟨by have := covers.1; omega, by omega⟩
  exact position_of_step op here next
    (fun o known jump => closed.jumps elementOp known jump elementArg) run

theorem steps_of_running (run : b.step f = .running b') : b'.steps = b.steps + 1 := by
  obtain ⟨tape, position, steps⟩ := b
  rcases uniform_step f tape position with ⟨tape', position', goes⟩ | ⟨reason, stops⟩
  · cases (goes steps).symm.trans run
    rfl
  · exact nomatch (stops steps).symm.trans run

theorem eq_of_stopped {reason : Stop} (run : b.step f = .stopped reason b') : b' = b := by
  obtain ⟨tape, position, steps⟩ := b
  rcases uniform_step f tape position with ⟨tape', position', goes⟩ | ⟨reason', stops⟩
  · exact nomatch (goes steps).symm.trans run
  · cases (stops steps).symm.trans run
    rfl

/-- **A batch of closed code looks up only what is there**, and it stops inside the code, at a slot
unless it has come to the end, after no more steps than it may take. -/
theorem run_of_closed (closed : f.Closed) (covers : f.Covers b.position) (budget : Nat) :
    checkedRun? f budget b = some (run f budget b) ∧ f.Covers (run f budget b).2.position ∧
      ((run f budget b).1 ≠ .ended → (run f budget b).2.position < f.size) ∧
      (run f budget b).2.steps ≤ b.steps + budget := by
  induction budget generalizing b with
  | zero =>
    unfold checkedRun? run
    split
    · exact ⟨rfl, covers, fun other => absurd rfl other, Nat.le_refl _⟩
    · next inside => exact ⟨rfl, covers, fun _ => Int.not_le.1 inside, Nat.le_refl _⟩
  | succ budget ih =>
    unfold checkedRun? run
    split
    · exact ⟨rfl, covers, fun other => absurd rfl other, Nat.le_add_right _ _⟩
    · next inside =>
      rw [checkedStep?_eq closed covers inside]
      cases hstep : b.step f with
      | running b' =>
        obtain ⟨same, stays, stopped, bounded⟩ := ih (covers_of_step closed covers inside hstep)
        rw [steps_of_running hstep] at bounded
        exact ⟨same, stays, stopped, Nat.le_trans bounded (by omega)⟩
      | stopped reason b' =>
        cases eq_of_stopped hstep
        exact ⟨rfl, covers, fun _ => Int.not_le.1 inside, Nat.le_add_right _ _⟩

end Batch

/-! ### Runners -/

namespace Runner
variable {f : Flat} {policy : EndOfInput} {m : Machine} {r : Runner}

/-- The runner after a turn, whether it goes on or not. -/
def Next.runner : Next → Runner
  | running r => r
  | stopped _ r => r

/-- What becomes of a new runner in any number of turns, each with a size of batches and a limit of
its own. A turn after one that has stopped is the first turn of the next run. -/
inductive Reachable (f : Flat) (policy : EndOfInput) (m : Machine) : Runner → Prop where
  | start : Reachable f policy m { machine := m }
  | turn {r : Runner} (before : Reachable f policy m r) (batchSteps : Int) (limit : Option Int) :
    Reachable f policy m (r.turn f policy batchSteps limit).runner

/-- What a whole run leaves is reachable if its start is. -/
theorem Reachable.run (h : Reachable f policy m r) {batchSteps : Int} {limit : Option Int}
    {fuel : Nat} {fault : Option RunFault} {r' : Runner}
    (ran : r.run f policy batchSteps limit fuel = some (fault, r')) : Reachable f policy m r' := by
  induction fuel generalizing r with
  | zero => exact nomatch ran
  | succ fuel ih =>
    have next := h.turn batchSteps limit
    rw [Runner.run] at ran
    cases turned : r.turn f policy batchSteps limit with
    | running r'' =>
      rw [turned] at ran next
      exact ih next ran
    | stopped fault' r'' =>
      rw [turned] at ran next
      cases ran
      exact next

theorem runner_checked (limit : Option Int) (r : Runner) : (checked limit r).runner = r := by
  unfold checked
  split <;> rfl

/-- What a batch stops for leaves the position inside the code. -/
theorem covers_of_serve {limit : Option Int} {stop : Stop} (covers : f.Covers r.position)
    (inside : stop ≠ .ended → r.position < f.size) :
    f.Covers (serve policy limit stop r).runner.position := by
  have next : stop ≠ .ended → f.Covers (r.position + 1) := fun other => by
    have := inside other
    exact ⟨by have := covers.1; omega, by omega⟩
  cases stop with
  | ended => exact covers
  | astray => exact covers
  | budget =>
    rw [serve, runner_checked]
    exact covers
  | grow =>
    rw [serve, runner_checked]
    exact covers
  | output =>
    rw [serve, runner_checked]
    exact next (by decide)
  | input =>
    simp only [serve]
    cases r.machine.input policy with
    | ended m =>
      rw [runner_checked]
      exact next (by decide)
    | exhausted m => exact covers

/-- A turn stays inside closed code. -/
theorem covers_of_turn (closed : f.Closed) (covers : f.Covers r.position) (batchSteps : Int)
    (limit : Option Int) : f.Covers (r.turn f policy batchSteps limit).runner.position := by
  rcases ran : r.runBatch f (budget batchSteps limit r.steps) with ⟨stop, r'⟩
  obtain ⟨-, stays, inside, -⟩ := Batch.run_of_closed (b := ⟨r.machine.tape, r.position, 0⟩)
    closed covers (budget batchSteps limit r.steps)
  cases (runBatch_eq r _).symm.trans ran
  cases exceeded : exceeded? limit (r.resumed _).steps with
  | some l =>
    rw [turn_of_exceeded ran exceeded]
    exact stays
  | none =>
    rw [turn_of_free ran exceeded]
    exact covers_of_serve stays inside

/-- **Every reachable runner stands inside closed code.** -/
theorem covers_of_reachable (closed : f.Closed) (h : Reachable f policy m r) :
    f.Covers r.position := by
  induction h with
  | start => exact ⟨Int.le_refl 0, Int.natCast_nonneg _⟩
  | turn _ batchSteps limit ih => exact covers_of_turn closed ih batchSteps limit

end Runner

/-! ### Runs of lowered code -/

/-- **Lowered code runs inside its slots and inside the window.** Packed code whose operands and
jumps fit can be lowered, to as many operands as operations. A runner of it, from any machine and
after any turns of any runs, has a position that is a slot or the end, and whatever number is given
to its next batch, the batch looks up words and bytes only where they are, stops at a slot or the
end, and takes no more steps than that number, or none if it is below zero. -/
theorem batches_stay_inside {c : Packed} (policy : EndOfInput) (m : Machine)
    (operands : Flat.operandsFit c = true) (room : fitsWord c.slots = true) :
    ∃ f, c.lower? = some f ∧ f.args.size = f.size ∧ ∀ r, Runner.Reachable f policy m r →
      (0 ≤ r.position ∧ r.position ≤ f.size) ∧
      ∀ maxSteps : Int, ∃ stop b,
        Batch.run f maxSteps.toNat ⟨r.machine.tape, r.position, 0⟩ = (stop, b) ∧
        Batch.checkedRun? f maxSteps.toNat ⟨r.machine.tape, r.position, 0⟩ = some (stop, b) ∧
        (0 ≤ b.position ∧ b.position ≤ f.size) ∧ b.steps ≤ max 0 maxSteps := by
  have fits : fitsWord (Flat.assemble 0 c).length = true :=
    Flat.fitsWord_of_le (Flat.length_assemble_le c 0) room
  have lowered : c.lower? = some (Flat.append {} (Flat.assemble 0 c)) := by
    rw [Flat.lower?_eq, operands, fits]
    rfl
  have closed := Flat.closed_of_lower lowered
  refine ⟨_, lowered, closed.aligned, fun r reachable => ?_⟩
  have covers := Runner.covers_of_reachable closed reachable
  refine ⟨covers, fun maxSteps => ⟨_, _, rfl, ?_⟩⟩
  obtain ⟨found, stays, -, bounded⟩ :=
    Batch.run_of_closed (b := ⟨r.machine.tape, r.position, 0⟩) closed covers maxSteps.toNat
  exact ⟨found, stays, by simp only at bounded; omega⟩

/-- Whatever a run leaves of copying to the left, the next batch finds all that it looks up. -/
theorem batches_stay_inside_copyLeft :
    ∃ f, Packed.copyLeft.lower? = some f ∧
      ∀ batchSteps fuel fault r, Runner.run f .error batchSteps none fuel
        { machine := { unread := [7, 5] } } = some (fault, r) →
          r.position ≤ f.size ∧
            ∃ e, Batch.checkedRun? f 5 ⟨r.machine.tape, r.position, 0⟩ = some e := by
  obtain ⟨f, lowered, -, inside⟩ := batches_stay_inside (c := Packed.copyLeft) .error
    { unread := [7, 5] } (by decide) (by decide)
  refine ⟨f, lowered, fun _ _ _ r ran => ?_⟩
  obtain ⟨position, batch⟩ := inside r (.run .start ran)
  obtain ⟨stop, b, -, found, -⟩ := batch 5
  exact ⟨position.2, (stop, b), found⟩

end TapeLang
