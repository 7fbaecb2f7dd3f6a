import TapeLang.Proofs.Safety

/-! Two sizes of batches.

A run in batches stops where the run slot by slot does, so batches of two sizes stop at the same
place, with the same machine, position and steps, under any limit and in any code at all. What can
stop a run is known of code whose slots all have operands and whose jumps go no further back than
the code is long (`Flat.Anchored`). Positions below zero count from the end of such code, so each
position that a run comes to names a slot until it is past the code (`Anchored.words`), and nothing
but the end, the limit and a byte that is not there stops the run (`batch_sizes_agree`). -/
namespace TapeLang
open Course (Leads Halts)

namespace Flat

/-- A position names a slot, from the start or from the end, or it is past the code. -/
def Admits (f : Flat) (position : Int) : Prop := -(f.size : Int) ≤ position

/-- The operation at a position, if there is one, is not a move, so it looks at the cell at the
cursor. -/
def Accesses (f : Flat) (position : Int) : Prop :=
  ∃ code, f.op? position = some code ∧ Opcode.ofCode? code ≠ some .move

/-- Every slot has an operand, and the operand of a jump goes no further back than the code is
long. -/
structure Anchored (f : Flat) : Prop where
  aligned : f.Aligned
  jumps : ∀ {slot : Int} {code arg : Int64} {op : Opcode}, element? f.ops slot = some code →
    Opcode.ofCode? code = some op → op.isJump = true → element? f.args slot = some arg →
    f.Admits arg.toInt

variable {f : Flat} {position : Int}

theorem Closed.anchored (closed : f.Closed) : f.Anchored where
  aligned := closed.aligned
  jumps hop known jump harg := by
    have := (closed.jumps hop known jump harg).1
    simp only [Admits]
    omega

/-- The slot that an admitted position names is the same in columns of one length. -/
theorem exists_slotIn? {length : Nat} (low : -(length : Int) ≤ position)
    (inside : ¬ (length : Int) ≤ position) :
    ∃ slot < length, slotIn? length position = some slot := by
  by_cases below : position < 0
  · refine ⟨(position + length).toNat, by omega, ?_⟩
    rw [slotIn?, if_pos below, if_pos (by omega)]
  · refine ⟨position.toNat, by omega, ?_⟩
    rw [slotIn?, if_neg below, if_pos (by omega)]

/-- Where a position names a slot of anchored code, both columns have a word. -/
theorem Anchored.words (anchored : f.Anchored) (admits : f.Admits position)
    (inside : ¬ (f.size : Int) ≤ position) :
    ∃ (slot : Int) (code arg : Int64), element? f.ops slot = some code ∧
      element? f.args slot = some arg ∧ f.op? position = some code ∧
      f.arg? position = some arg := by
  obtain ⟨slot, less, named⟩ := exists_slotIn? admits inside
  have less : slot < f.ops.size := less
  have less' : slot < f.args.size := by rwa [show f.args.size = f.ops.size from anchored.aligned]
  have named' : slotIn? f.args.size position = some slot := by
    rwa [show f.args.size = f.size from anchored.aligned]
  have named : slotIn? f.ops.size position = some slot := named
  refine ⟨slot, f.ops[slot], f.args[slot], ?_, ?_, ?_, ?_⟩
  · rw [element?_natCast, Array.getElem?_eq_getElem less]
  · rw [element?_natCast, Array.getElem?_eq_getElem less']
  · simp only [op?, wordAt?, named, Option.bind_eq_bind, Option.bind_some,
      Array.getElem?_eq_getElem less]
  · simp only [arg?, wordAt?, named', Option.bind_eq_bind, Option.bind_some,
      Array.getElem?_eq_getElem less']

end Flat

/-! ### What a step can stop for -/

namespace Batch
variable {f : Flat} {b b' : Batch} {reason : Stop}

/-- What a step of code can stop for: a service at its slot, a cell that it accesses and that is not
stored, or a word that the code does not have. -/
def StopsFor (f : Flat) (b : Batch) : Stop → Prop
  | .output => True
  | .input => True
  | .grow => f.Accesses b.position ∧ ¬ (0 ≤ index b.tape ∧ index b.tape < b.tape.size)
  | .astray => f.op? b.position = none ∨ f.arg? b.position = none
  | .ended => False
  | .budget => False

theorem stopsFor_of_withArg {next : Int64 → Next}
    (goes : ∀ arg, ∃ b', next arg = .running b') (run : withArg f b next = .stopped reason b') :
    b.StopsFor f reason := by
  cases harg : f.arg? b.position with
  | none =>
    simp only [withArg, harg] at run
    cases run
    exact .inr harg
  | some arg =>
    obtain ⟨b'', running⟩ := goes arg
    simp only [withArg, harg, running] at run
    cases run

theorem stopsFor_of_act {op : Option Opcode} {slot : Nat} {value : UInt8}
    (run : act f op slot value b = .stopped reason b') : b.StopsFor f reason := by
  match op with
  | none => cases run
  | some .move => cases run
  | some .clear => cases run
  | some .output =>
    cases run
    trivial
  | some .input =>
    cases run
    trivial
  | some .add => exact stopsFor_of_withArg (fun arg => ⟨_, rfl⟩) run
  | some .jumpIfZero =>
    simp only [act] at run
    split at run
    · exact stopsFor_of_withArg (fun arg => ⟨_, rfl⟩) run
    · cases run
  | some .jumpIfNonzero =>
    simp only [act] at run
    split at run
    · cases run
    · exact stopsFor_of_withArg (fun arg => ⟨_, rfl⟩) run

theorem stopsFor_of_step (run : b.step f = .stopped reason b') : b.StopsFor f reason := by
  cases hop : f.op? b.position with
  | none =>
    simp only [step, hop] at run
    cases run
    exact .inl hop
  | some code =>
    by_cases move : Opcode.ofCode? code = some .move
    · simp only [step, hop, move] at run
      exact stopsFor_of_withArg (fun arg => ⟨_, rfl⟩) run
    · rw [step_of_not_move hop move] at run
      split at run
      · exact stopsFor_of_act run
      · next outside =>
        cases run
        exact ⟨⟨code, hop, move⟩, outside⟩

end Batch

/-! ### What can stop a run -/

namespace Runner
variable {f : Flat} {policy : EndOfInput} {limit : Option Int} {r r' : Runner}

/-- A run has come to its end, wants a byte that is not there, or has exceeded the limit. -/
def Expected (limit : Option Int) : Option RunFault → Prop
  | none => True
  | some (.inputExhausted _) => True
  | some (.stepLimit l) => limit = some l
  | some _ => False

theorem Expected.cases {fault : Option RunFault} (h : Expected limit fault) :
    fault = none ∨ (∃ cell, fault = some (.inputExhausted cell)) ∨
      ∃ l, limit = some l ∧ fault = some (.stepLimit l) := by
  match fault with
  | none => exact .inl rfl
  | some (.inputExhausted cell) => exact .inr (.inl ⟨cell, rfl⟩)
  | some (.stepLimit l) => exact .inr (.inr ⟨l, h, rfl⟩)
  | some (.astray position) => exact h.elim
  | some (.tooWide number) => exact h.elim

theorem limit_of_exceeded {steps : Nat} {l : Int} (h : exceeded? limit steps = some l) :
    limit = some l := by
  cases limit with
  | none => exact nomatch h
  | some l' => exact (Option.filter_eq_some_iff.1 h).1

variable (policy limit) in
/-- One slot of anchored code leads to a position that names a slot or is past the code, or it stops
the run for a reason that is expected. -/
theorem advance_anchored (anchored : f.Anchored) (admits : f.Admits r.position) :
    match advance f policy limit r with
    | .inl r' => f.Admits r'.position
    | .inr e => Expected limit e.1 := by
  cases free : exceeded? limit r.steps with
  | some l =>
    rw [advance_of_exceeded free]
    exact limit_of_exceeded free
  | none =>
    by_cases past : (f.size : Int) ≤ r.position
    · rw [advance_past free past]
      trivial
    · obtain ⟨slot, code, arg, elementOp, elementArg, op, here⟩ := anchored.words admits past
      have next : f.Admits (r.position + 1) := Int.le_trans admits (by omega)
      cases run : Batch.step f ⟨r.machine.tape, r.position, 0⟩ with
      | running b =>
        rw [advance_running free past run]
        exact Batch.position_of_step (b := ⟨r.machine.tape, r.position, 0⟩) op here next
          (fun o known jump => anchored.jumps elementOp known jump elementArg) run
      | stopped stop b =>
        rw [advance_stopped free past run]
        have reason := Batch.stopsFor_of_step run
        match stop with
        | .output => exact next
        | .grow => exact admits
        | .input =>
          rw [serve_input]
          cases r.machine.input policy with
          | ended m => exact next
          | exhausted m => trivial
        | .astray =>
          rcases reason with missing | missing
          · exact nomatch op.symm.trans missing
          · exact nomatch here.symm.trans missing

/-- **Nothing unexpected stops a run of anchored code.** -/
theorem expected_of_halts (anchored : f.Anchored) (admits : f.Admits r.position)
    {e : Option RunFault × Runner} (halts : Halts (advance f policy limit) r e) :
    Expected limit e.1 := by
  obtain ⟨last, leads, stop⟩ := halts
  have kept : f.Admits last.position := by
    clear stop
    induction leads with
    | refl => exact admits
    | @tail s next _ goes ih =>
      have step := advance_anchored policy limit anchored ih
      rwa [show advance f policy limit s = .inl next from goes] at step
  have step := advance_anchored policy limit anchored kept
  rwa [stop] at step

end Runner

/-- **The size of batches does not show.** Flat code run from any runner, under any limit or none,
in batches of one size or of another, stops with the same fault or without one, with the same
machine, at the same position and after the same steps, or does not stop on either way; and where
the numbers that the batches start with fit into words, the same is told of both runs. If every slot
has its operand and no jump goes further back than the code is long, what stops it is the end, a
byte that is not there, or the limit. -/
theorem batch_sizes_agree (f : Flat) (policy : EndOfInput) (limit : Option Int) (r : Runner)
    {batchSteps batchSteps' : Int} (hb : 1 ≤ batchSteps) (hb' : 1 ≤ batchSteps') :
    (∀ e, (∃ fuel, r.run f policy batchSteps limit fuel = some e) ↔
      ∃ fuel, r.run f policy batchSteps' limit fuel = some e) ∧
    (∀ fuel fuel' e e', r.run f policy batchSteps limit fuel = some e →
      r.run f policy batchSteps' limit fuel' = some e' → e = e') ∧
    (r.misfit? batchSteps limit = none → r.misfit? batchSteps' limit = none →
      ∀ ran, (∃ fuel, batch fuel policy batchSteps limit f r = some ran) ↔
        ∃ fuel, batch fuel policy batchSteps' limit f r = some ran) ∧
    (f.Anchored → f.Admits r.position → ∀ fuel fault r',
      r.run f policy batchSteps limit fuel = some (fault, r') →
        fault = none ∨ (∃ cell, fault = some (.inputExhausted cell)) ∨
          ∃ l, limit = some l ∧ fault = some (.stepLimit l)) := by
  have same : ∀ e, (∃ fuel, r.run f policy batchSteps limit fuel = some e) ↔
      ∃ fuel, r.run f policy batchSteps' limit fuel = some e := fun e =>
    (Runner.run_iff_halts hb).trans (Runner.run_iff_halts hb').symm
  refine ⟨same, fun fuel fuel' e e' ran ran' => ?_, fun fits fits' ran => ?_,
    fun anchored admits fuel fault r' ran => ?_⟩
  · have halts := (Runner.run_iff_halts hb).1 ⟨fuel, ran⟩
    exact halts.unique ((Runner.run_iff_halts hb').1 ⟨fuel', ran'⟩)
  · exact (batch_iff_halts fits hb).trans (batch_iff_halts fits' hb').symm
  · exact (Runner.expected_of_halts anchored admits
      ((Runner.run_iff_halts hb).1 ⟨fuel, ran⟩)).cases

/-- A jump to the last slot, `-1` from the end, which writes a byte out. It goes on for ever. -/
def Flat.backAndForth : Flat := ⟨#[5, 3], #[-1, 0]⟩

theorem Flat.anchored_backAndForth : backAndForth.Anchored where
  aligned := rfl
  jumps {slot code arg op} _ _ _ harg := by
    simp only [element?] at harg
    split at harg
    · have mem : arg ∈ [(-1 : Int64), 0] := Array.mem_toList_iff.2 (Array.mem_of_getElem? harg)
      simp only [List.mem_cons, List.not_mem_nil, or_false] at mem
      rcases mem with rfl | rfl
      · exact (by decide : (-2 : Int) ≤ (-1 : Int64).toInt)
      · exact (by decide : (-2 : Int) ≤ (0 : Int64).toInt)
    · cases harg

/-- In batches of a thousand slots the run exceeds a limit where it does slot by slot. It never
leaves the code. -/
theorem batch_sizes_agree_backAndForth :
    (∃ fuel r, Runner.run Flat.backAndForth .error 1000 (some 4) fuel { machine := {} } =
      some (some (.stepLimit 4), r) ∧ r.machine.written = #[0, 0] ∧ r.position = -1) ∧
    ∀ fuel position r, Runner.run Flat.backAndForth .error 1 (some 4) fuel { machine := {} } ≠
      some (some (.astray position), r) := by
  obtain ⟨ends, -, -, expected⟩ := batch_sizes_agree Flat.backAndForth .error (some 4)
    { machine := {} } (by decide : (1 : Int) ≤ 1) (by decide : (1 : Int) ≤ 1000)
  have slotwise : Runner.run Flat.backAndForth .error 1 (some 4) 6 { machine := {} } =
      some (some (.stepLimit 4),
        ⟨⟨⟨#[0], 0, 0⟩, [], #[0, 0], #[⟨.right, 1, 0, 1⟩]⟩, -1, 5⟩) := rfl
  obtain ⟨fuel, batched⟩ := (ends _).1 ⟨6, slotwise⟩
  refine ⟨⟨fuel, _, batched, rfl, rfl⟩, fun fuel' position r ran => ?_⟩
  rcases expected Flat.anchored_backAndForth (show (-2 : Int) ≤ 0 by decide) fuel' _ r ran with
    none | ⟨cell, input⟩ | ⟨l, -, exceeded⟩
  · exact nomatch none
  · exact nomatch input
  · exact nomatch exceeded

end TapeLang
