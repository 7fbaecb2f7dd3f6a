import TapeLang.Proofs.Batches
import TapeLang.Proofs.Evaluation
import TapeLang.Proofs.Slots
import TapeLang.Proofs.Storage

/-! Running flat code is evaluating the packed code that it holds.

A run of flat code works in words, so it does what packed code means only as long as the cursor and
the index of its cell fit into words (`Machine.Fits`). While they do, every slot is one step of the
evaluation: an operation, or one look at a loop, from whichever of its two jumps (`leads_leaf`,
`leads_look`). By induction on the course of the evaluation a run that starts where packed code is
entered comes to where it is left (`Runner.follows`), at every depth of loops. Where a byte is
wanted and none is left, the cell has been made stored by then, which the evaluation does not do;
nothing that has been written or is said about it shows that. What holds of such runs holds of a
whole run in batches whose numbers fit (`Runner.batch_of_eval`, `Runner.eval_of_batch`). -/
namespace TapeLang
open Course (Leads Halts)

/-- Whether flat code can work at the cursor: it and the index of its cell fit into words. -/
def Machine.Fits (m : Machine) : Prop :=
  fitsWord m.tape.cursor = true ∧ fitsWord (m.tape.cursor + m.tape.originOffset) = true

instance (m : Machine) : Decidable m.Fits := inferInstanceAs (Decidable (_ ∧ _))

namespace Machine
variable {m : Machine}

/-- Making the cell stored moves its index to zero, if at all. -/
theorem fits_touch (h : m.Fits) : m.touch.Fits := by
  unfold touch reach Tape.growth?
  by_cases below : m.tape.index m.tape.cursor < 0
  · simp only [if_pos below]
    refine ⟨h.1, ?_⟩
    have zero :
        m.tape.cursor + (m.tape.originOffset + (-m.tape.index m.tape.cursor).toNat) = 0 := by
      simp only [Tape.index] at below ⊢
      omega
    show fitsWord (m.tape.cursor + (m.tape.originOffset + _)) = true
    rw [zero]
    decide
  · by_cases above : (m.tape.size : Int) ≤ m.tape.index m.tape.cursor
    · simp only [if_neg below, if_pos above]
      exact h
    · simp only [if_neg below, if_neg above]
      exact h

theorem index_eq (h : m.Fits) : Batch.index m.tape = m.tape.index m.tape.cursor :=
  Flat.toInt_ofInt h.2

theorem stored_iff_index (h : m.Fits) :
    m.Stored ↔ 0 ≤ Batch.index m.tape ∧ Batch.index m.tape < m.tape.size := by
  rw [index_eq h]
  exact m.tape.growth?_eq_none_iff m.tape.cursor

theorem current_eq (stored : m.Stored) :
    m.tape.cells.getD (m.tape.index m.tape.cursor).toNat 0 = m.current := by
  have inside := ((m.tape.growth?_eq_none_iff m.tape.cursor).1 stored).1
  rw [current, Tape.current, Tape.peek, if_neg (by omega)]

theorem fits_store (h : m.Fits) (byte : UInt8) : (m.store byte).Fits := h

/-! ### Reading at a cell that is stored already -/

theorem touch_withUnread (unread : List UInt8) :
    { m with unread }.touch = { m.touch with unread } := by
  simp only [touch, reach]
  split <;> rfl

theorem input_touch {policy : EndOfInput} :
    m.touch.input policy =
      match m.input policy with
      | .ended m' => .ended m'
      | .exhausted m' => .exhausted m'.touch := by
  have same : m.touch.unread = m.unread := m.sameStreams_touch.1
  simp only [input, same]
  cases m.unread with
  | cons byte unread => simp only [← touch_withUnread, write_touch]
  | nil => cases policy <;> simp only [write_touch, touch_touch]

end Machine

namespace Runner
variable {f : Flat} {policy : EndOfInput} {m m' : Machine} {p : Nat} {k : Nat}

/-! ### One slot -/

theorem inside_of_hasSlot {slot : Flat.Slot} (h : f.HasSlot p slot) : ¬ (f.size : Int) ≤ p := by
  obtain ⟨hop, -⟩ := h
  rw [Flat.op?, Flat.wordAt?_ofNat] at hop
  have := (Array.getElem?_eq_some_iff.1 hop).1
  simp only [Flat.size]
  omega

theorem step_of_hasSlot {op : Opcode} {arg : Int} (slot : f.HasSlot p (op, arg))
    (other : op ≠ .move) (t : Tape) :
    Batch.step f ⟨t, p, 0⟩ =
      if 0 ≤ Batch.index t ∧ Batch.index t < t.size then
        Batch.act f op (Batch.index t).toNat (t.cells.getD (Batch.index t).toNat 0) ⟨t, p, 0⟩
      else .stopped .grow ⟨t, p, 0⟩ := by
  have known : Opcode.ofCode? op.code ≠ some .move := by
    simpa [Opcode.ofCode?_code] using other
  have step := Batch.step_of_not_move (b := ⟨t, p, 0⟩) slot.1 known
  rw [Opcode.ofCode?_code] at step
  exact step

theorem advance_grow {op : Opcode} {arg : Int} (slot : f.HasSlot p (op, arg)) (other : op ≠ .move)
    (fits : m.Fits) (unstored : ¬ m.Stored) :
    advance f policy none ⟨m, p, k⟩ = .inl ⟨m.touch, p, k⟩ := by
  have step : Batch.step f ⟨m.tape, p, 0⟩ = .stopped .grow ⟨m.tape, p, 0⟩ :=
    (step_of_hasSlot slot other m.tape).trans
      (if_neg fun inside => unstored ((Machine.stored_iff_index fits).2 inside))
  have stopped : advance f policy none ⟨m, p, k⟩ =
      (serve policy none .grow ⟨m, p, k⟩).asSum :=
    advance_stopped rfl (inside_of_hasSlot slot) step
  exact stopped

/-- Where an operation other than moving stands, the cell can be made stored first. -/
theorem leads_touch {op : Opcode} {arg : Int} (slot : f.HasSlot p (op, arg)) (other : op ≠ .move)
    (fits : m.Fits) : Leads (advance f policy none) ⟨m, p, k⟩ ⟨m.touch, p, k⟩ := by
  by_cases stored : m.Stored
  · rw [Machine.touch_of_stored stored]
  · exact .single (advance_grow slot other fits stored)

/-- An operation other than moving, at a stored cell. -/
theorem advance_act {op : Opcode} {arg : Int} (slot : f.HasSlot p (op, arg)) (other : op ≠ .move)
    (fits : m.Fits) (stored : m.Stored) :
    advance f policy none ⟨m, p, k⟩ =
      match Batch.act f op (m.tape.index m.tape.cursor).toNat m.current ⟨m.tape, p, 0⟩ with
      | .running b => .inl (resumed ⟨m, p, k⟩ b)
      | .stopped stop _ => (serve policy none stop ⟨m, p, k⟩).asSum := by
  have step : Batch.step f ⟨m.tape, p, 0⟩ =
      Batch.act f op (m.tape.index m.tape.cursor).toNat m.current ⟨m.tape, p, 0⟩ := by
    have inWindow := (Machine.stored_iff_index fits).1 stored
    refine ((step_of_hasSlot slot other m.tape).trans (if_pos inWindow)).trans ?_
    rw [Machine.index_eq fits, Machine.current_eq stored]
  have inside := inside_of_hasSlot slot
  cases hact : Batch.act f op (m.tape.index m.tape.cursor).toNat m.current ⟨m.tape, p, 0⟩ with
  | running b => exact advance_running rfl inside (step.trans hact)
  | stopped stop b => exact advance_stopped rfl inside (step.trans hact)

/-! ### Operations -/

theorem withArg_eq {op : Opcode} {arg : Int} (slot : f.HasSlot p (op, arg)) (t : Tape)
    (taken : Nat) : ∃ word : Int64, word.toInt = arg ∧
      ∀ next, Batch.withArg f ⟨t, p, taken⟩ next = next word := by
  obtain ⟨-, word, here, value⟩ := slot
  exact ⟨word, value, fun next => by simp only [Batch.withArg, here]⟩

/-- A byte is stored at the cursor and the next slot follows. -/
theorem resumed_store (byte : UInt8) :
    resumed ⟨m, p, k⟩
        (Batch.store (m.tape.index m.tape.cursor).toNat byte ⟨m.tape, p, 0⟩).forward =
      ⟨m.store byte, (p + 1 : Nat), k + 1⟩ := rfl

theorem leads_move {distance : Int} (slot : f.HasSlot p (.move, distance))
    (fits : (m.move distance).Fits) :
    Leads (advance f policy none) ⟨m, p, k⟩ ⟨m.move distance, (p + 1 : Nat), k + 1⟩ := by
  obtain ⟨word, value, withArg⟩ := withArg_eq slot m.tape 0
  have step : Batch.step f ⟨m.tape, p, 0⟩ = .running ⟨m.tape.move distance, (p + 1 : Nat), 1⟩ := by
    have cursor : Batch.wrap (m.tape.cursor + distance) = m.tape.cursor + distance :=
      Flat.toInt_ofInt fits.1
    simp only [Batch.step, slot.1, Opcode.ofCode?_code, withArg, value, cursor]
    rfl
  have goes : advance f policy none ⟨m, p, k⟩ =
      .inl (resumed ⟨m, p, k⟩ ⟨m.tape.move distance, (p + 1 : Nat), 1⟩) :=
    advance_running rfl (inside_of_hasSlot slot) step
  exact .single goes

theorem leads_add {amount : Int} (slot : f.HasSlot p (.add, amount)) (fits : m.Fits) :
    Leads (advance f policy none) ⟨m, p, k⟩ ⟨m.adjust amount, (p + 1 : Nat), k + 1⟩ := by
  refine (leads_touch slot (by decide) fits).tail ?_
  obtain ⟨word, value, withArg⟩ := withArg_eq slot m.touch.tape 0
  refine (advance_act slot (by decide) (Machine.fits_touch fits) m.stored_touch).trans ?_
  simp only [Batch.act, withArg, value, resumed_store]
  rfl

theorem leads_clear {arg : Int} (slot : f.HasSlot p (.clear, arg)) (fits : m.Fits) :
    Leads (advance f policy none) ⟨m, p, k⟩ ⟨m.write 0, (p + 1 : Nat), k + 1⟩ := by
  refine (leads_touch slot (by decide) fits).tail ?_
  exact advance_act slot (by decide) (Machine.fits_touch fits) m.stored_touch

theorem leads_output {arg : Int} (slot : f.HasSlot p (.output, arg)) (fits : m.Fits) :
    Leads (advance f policy none) ⟨m, p, k⟩ ⟨m.output, (p + 1 : Nat), k + 1⟩ := by
  refine (leads_touch slot (by decide) fits).tail ?_
  refine (advance_act slot (by decide) (Machine.fits_touch fits) m.stored_touch).trans ?_
  have same : m.touch.output = m.output := by simp only [Machine.output, Machine.touch_touch]
  simp only [Batch.act, serve, same]
  rfl

theorem serve_input (r : Runner) :
    (serve policy none .input r).asSum =
      match r.machine.input policy with
      | .ended m => .inl ⟨m, r.position + 1, r.steps + 1⟩
      | .exhausted m =>
        .inr (some (.inputExhausted m.tape.cursor), ⟨m, r.position, r.steps⟩) := by
  simp only [serve]
  cases r.machine.input policy <;> rfl

/-- What becomes of reading a byte is known once the cell is stored. -/
theorem advance_input {arg : Int} (slot : f.HasSlot p (.input, arg)) (fits : m.Fits) :
    advance f policy none ⟨m.touch, p, k⟩ =
      match m.input policy with
      | .ended m' => .inl ⟨m', (p + 1 : Nat), k + 1⟩
      | .exhausted m' => .inr (some (.inputExhausted m'.tape.cursor), ⟨m'.touch, p, k⟩) := by
  rw [advance_act slot (by decide) (Machine.fits_touch fits) m.stored_touch]
  simp only [Batch.act, serve_input, Machine.input_touch]
  cases m.input policy with
  | ended m' => rfl
  | exhausted m' => simp only [Machine.cursor_touch]

/-- An operation with an end is done at its slot. -/
theorem leads_leaf {op : Op} {slot : Flat.Slot} (hs : Flat.slotOf op = some slot)
    (here : f.HasSlot p slot) (run : op.exec policy m = .ended m') (fits : m.Fits)
    (fits' : m'.Fits) :
    Leads (advance f policy none) ⟨m, p, k⟩ ⟨m', (p + 1 : Nat), k + 1⟩ := by
  match op, hs with
  | .move distance, rfl =>
    cases run
    exact leads_move here fits'
  | .add amount, rfl =>
    cases run
    exact leads_add here fits
  | .clear, rfl =>
    cases run
    exact leads_clear here fits
  | .plain .output, rfl =>
    cases run
    exact leads_output here fits
  | .plain .input, rfl =>
    have run : m.input policy = .ended m' := run
    refine (leads_touch here (by decide) fits).tail ?_
    exact (advance_input here fits).trans (by rw [run])

/-- Where an operation wants a byte and none is left, the run stops with the cell stored. -/
theorem halts_leaf {op : Op} {slot : Flat.Slot} (hs : Flat.slotOf op = some slot)
    (here : f.HasSlot p slot) (run : op.exec policy m = .exhausted m') (fits : m.Fits) :
    Halts (advance f policy none) ⟨m, p, k⟩
      (some (.inputExhausted m'.tape.cursor), ⟨m'.touch, p, k⟩) := by
  match op, hs with
  | .move distance, rfl => cases run
  | .add amount, rfl => cases run
  | .clear, rfl => cases run
  | .plain .output, rfl => cases run
  | .plain .input, rfl =>
    have run : m.input policy = .exhausted m' := run
    refine .before (leads_touch here (by decide) fits) (.stop ?_)
    exact (advance_input here fits).trans (by rw [run])

/-! ### Loops -/

variable (policy) in
/-- A loop is looked at from either of its jumps, and both lead on alike. -/
theorem leads_look {start stop : Nat} (opening : f.HasSlot start (.jumpIfZero, stop + 1))
    (closing : f.HasSlot stop (.jumpIfNonzero, start + 1)) (entry : p = start ∨ p = stop)
    (fits : m.Fits) (k : Nat) :
    Leads (advance f policy none) ⟨m, p, k⟩
      ⟨m.touch, (if m.touch.current = 0 then stop + 1 else start + 1 : Nat), k + 1⟩ := by
  have stored := m.stored_touch
  have fits' := Machine.fits_touch fits
  rcases entry with rfl | rfl
  · refine (leads_touch opening (by decide) fits).tail ?_
    obtain ⟨word, target, withArg⟩ := withArg_eq opening m.touch.tape 0
    refine (advance_act opening (by decide) fits' stored).trans ?_
    by_cases zero : m.touch.current = 0
    · simp only [Batch.act, if_pos zero, withArg, Batch.jump, target]
      rfl
    · simp only [Batch.act, if_neg zero]
      rfl
  · refine (leads_touch closing (by decide) fits).tail ?_
    obtain ⟨word, target, withArg⟩ := withArg_eq closing m.touch.tape 0
    refine (advance_act closing (by decide) fits' stored).trans ?_
    by_cases zero : m.touch.current = 0
    · simp only [Batch.act, if_pos zero]
      rfl
    · simp only [Batch.act, if_neg zero, withArg, Batch.jump, target]
      rfl

/-! ### Whole runs -/

/-- What a run of flat code does that follows an evaluation to a stage: it is at the given slot when
the evaluation has ended, and the steps are those counted by then. -/
def Follows (f : Flat) (policy : EndOfInput) (r : Runner) (exit steps : Nat) : Stage → Prop :=
  Code.Follows (advance f policy none) (fun m r => r.machine = m ∧ r.steps = steps)
    (fun m e => e.1 = some (.inputExhausted m.tape.cursor) ∧ e.2.machine = m.touch ∧
      e.2.steps = steps)
    (fun m => ⟨m, exit, steps⟩) r

/-- **With packed code held from a slot on, a run from there does what the evaluation does.** Only
the machines up to that stage have to fit. -/
theorem follows {c : Packed} {n : Nat} {s : Stage} (h : c.Reaches (Op.exec policy) m n s)
    {entry exit : Nat} (holds : f.Holds c entry exit)
    (fits : c.StaysFor (Op.exec policy) Machine.Fits n m) (steps : Nat) :
    Follows f policy ⟨m, entry, steps⟩ exit (steps + n) s := by
  induction h generalizing entry exit steps with
  | amid c m => exact ⟨_, .refl, rfl, rfl⟩
  | nil m =>
    cases show entry = exit from holds
    exact .refl
  | leaf run _ ih =>
    obtain ⟨slot, hs, here, after⟩ := holds
    have fitsAfter := fits.leaf run
    have next := ih after fitsAfter (steps + 1)
    rw [Nat.add_right_comm] at next
    exact next.before (leads_leaf hs here run fits.here fitsAfter.here)
  | exhausted run =>
    obtain ⟨slot, hs, here, -⟩ := holds
    exact ⟨_, halts_leaf hs here run fits.here, rfl, rfl, rfl⟩
  | skip zero _ ih =>
    obtain ⟨start, stop, at_jump, opening, closing, -, after⟩ := holds
    have look := leads_look policy opening closing at_jump fits.here steps
    rw [if_pos zero] at look
    have next := ih after (fits.skip zero) (steps + 1)
    rw [Nat.add_right_comm] at next
    exact next.before look
  | inside nonzero _ unfinished ih =>
    obtain ⟨start, stop, at_jump, opening, closing, inner, -⟩ := holds
    have look := leads_look policy opening closing at_jump fits.here steps
    rw [if_neg nonzero] at look
    have next := ih inner (fits.inside nonzero) (steps + 1)
    rw [Nat.add_right_comm] at next
    exact (next.unfinished unfinished).before look
  | @again body rest m m' n k s nonzero round _ ihb ihl =>
    obtain ⟨start, stop, at_jump, opening, closing, inner, after⟩ := holds
    have look := leads_look policy opening closing at_jump fits.here steps
    rw [if_neg nonzero] at look
    have fitsInside := (fits.mono (Nat.le_add_right (n + 1) k)).inside nonzero
    have round' := ihb inner fitsInside (steps + 1)
    -- After a round the loop is entered at its second jump.
    have holds' : f.Holds (.loop body rest) stop exit :=
      ⟨start, stop, .inr rfl, opening, closing, inner, after⟩
    have next := ihl holds' (fits.again nonzero round) (steps + 1 + n)
    rw [show steps + 1 + n + k = steps + (n + 1 + k) by omega] at next
    exact (next.before round').before look

/-- What a run of flat code stops with after an outcome. -/
def Reports (f : Flat) (steps : Nat) : Outcome → Option RunFault × Runner → Prop :=
  Code.Reports
    (fun m e => e.1 = some (.inputExhausted m.tape.cursor) ∧ e.2.machine = m.touch)
    (fun m => (none, ⟨m, f.size, steps⟩))

theorem advance_end (steps : Nat) :
    advance f policy none ⟨m, f.size, steps⟩ = .inr (none, ⟨m, f.size, steps⟩) :=
  advance_past rfl (Int.le_refl _)

section
variable {c : Packed} (holds : f.Holds c 0 f.size) (fits : c.Stays (Op.exec policy) Machine.Fits m)
include holds fits

theorem runner_halts_of_reaches {n : Nat} {o : Outcome}
    (h : c.Reaches (Op.exec policy) m n (.settled o)) :
    ∃ e, Halts (advance f policy none) { machine := m } e ∧ Reports f (0 + n) o e := by
  have there := follows h holds (fits.staysFor n) 0
  obtain ⟨e, halts, reports⟩ := there.halts fun _ => advance_end (0 + n)
  exact ⟨e, halts, reports.imp fun _ _ failed => ⟨failed.1, failed.2.1⟩⟩

/-- A run of flat code stops only with what the evaluation of the packed code comes to. -/
theorem reaches_of_runner_halts {e : Option RunFault × Runner}
    (halts : Halts (advance f policy none) { machine := m } e) :
    ∃ n o, c.Reaches (Op.exec policy) m n (.settled o) ∧ Reports f (0 + n) o e := by
  obtain ⟨n, o, reaches, reports⟩ := Code.reaches_of_halts Runner.steps
    (fun n _ h => follows h holds (fits.staysFor n) 0)
    (fun n _ _ here => here.2 ▸ Nat.le_add_left n 0) (fun n _ => advance_end (0 + n)) halts
  exact ⟨n, o, reaches, reports.imp fun _ _ failed => ⟨failed.1, failed.2.1⟩⟩

variable {batchSteps : Int} (hb : 1 ≤ batchSteps)
include hb

theorem run_of_eval {rounds : Nat} {o : Outcome}
    (eval : c.eval (Op.exec policy) rounds m = some o) :
    ∃ steps fuel e, Runner.run f policy batchSteps none fuel { machine := m } = some e ∧
      Reports f steps o e := by
  obtain ⟨n, reaches⟩ := Code.reaches_of_eval eval
  obtain ⟨e, halts, reports⟩ := runner_halts_of_reaches holds fits reaches
  obtain ⟨fuel, run⟩ := (run_iff_halts hb).2 halts
  exact ⟨0 + n, fuel, e, run, reports⟩

theorem eval_of_run {fuel : Nat} {e : Option RunFault × Runner}
    (run : Runner.run f policy batchSteps none fuel { machine := m } = some e) :
    ∃ rounds steps o, c.eval (Op.exec policy) rounds m = some o ∧ Reports f steps o e := by
  obtain ⟨n, o, reaches, reports⟩ :=
    reaches_of_runner_halts holds fits ((run_iff_halts hb).1 ⟨fuel, run⟩)
  obtain ⟨rounds, eval⟩ := Code.eval_of_reaches reaches
  exact ⟨rounds, 0 + n, o, eval, reports⟩

variable (words : misfit? batchSteps none { machine := m } = none)
include words

theorem batch_of_eval {rounds : Nat} {o : Outcome}
    (eval : c.eval (Op.exec policy) rounds m = some o) :
    ∃ steps fuel e, batch fuel policy batchSteps none f { machine := m } =
      some (Ran.ofRunner f m.growths.size e) ∧ Reports f steps o e := by
  obtain ⟨steps, fuel, e, run, reports⟩ := run_of_eval holds fits hb eval
  exact ⟨steps, fuel, e, by rw [batch_eq_map words, run, Option.map_some], reports⟩

theorem eval_of_batch {fuel : Nat} {ran : Ran}
    (run : batch fuel policy batchSteps none f { machine := m } = some ran) :
    ∃ e, Ran.ofRunner f m.growths.size e = ran ∧
      ∃ rounds steps o, c.eval (Op.exec policy) rounds m = some o ∧ Reports f steps o e := by
  rw [batch_eq_map words, Option.map_eq_some_iff] at run
  obtain ⟨e, run, told⟩ := run
  exact ⟨e, told, eval_of_run holds fits hb run⟩

end

end Runner

/-! ### Code that stays at its cell -/

/-- Whether a command leaves the cursor where it is. -/
def Command.isStill : Command → Bool
  | advance => false
  | retreat => false
  | _ => true

def Op.isStill : Op → Bool
  | .move _ => false
  | .plain c => c.isStill
  | _ => true

theorem Command.fits_of_still {policy : EndOfInput} (c : Command) (still : c.isStill = true)
    (m m' : Machine) (h : m.Fits) (run : c.exec policy m = .ended m') : m'.Fits := by
  have fits : ∀ byte, (m.touch.store byte).Fits := Machine.fits_store (Machine.fits_touch h)
  match c, still with
  | .increment, _ =>
    cases run
    exact fits _
  | .decrement, _ =>
    cases run
    exact fits _
  | .output, _ =>
    cases run
    exact Machine.fits_touch h
  | .input, _ =>
    rcases Machine.input_ended run with ⟨byte, unread, rfl⟩ | rfl | rfl
    · exact Machine.fits_touch (m := { m with unread }) h
    · exact fits _
    · exact Machine.fits_touch h

theorem Op.fits_of_still {policy : EndOfInput} (op : Op) (still : op.isStill = true)
    (m m' : Machine) (h : m.Fits) (run : op.exec policy m = .ended m') : m'.Fits := by
  have fits : ∀ byte, (m.touch.store byte).Fits := Machine.fits_store (Machine.fits_touch h)
  match op, still with
  | .add amount, _ =>
    cases run
    exact fits _
  | .clear, _ =>
    cases run
    exact fits _
  | .plain c, still => exact c.fits_of_still still m m' h run
  | .plainLoop body, _ =>
    cases run
    exact h

/-! ### Code that is followed as far as it moves -/

namespace Code
variable {α : Type} {exec : α → Machine → Outcome} {still : α → Bool}

/-- Whether all machines are seen to fit on the way through code: its leaves are followed one after
the other until what is left never moves. -/
def fitsAlong (exec : α → Machine → Outcome) (still : α → Bool) : Code α → Machine → Bool
  | .nil, m => decide m.Fits
  | .leaf a rest, m =>
    decide m.Fits &&
      (still a && rest.all still ||
        match exec a m with
        | .ended m' => rest.fitsAlong exec still m'
        | .exhausted _ => true)
  | .loop body rest, m => decide m.Fits && (body.all still && rest.all still)

/-- Code that never moves fits wherever its start does, and so does code that is followed up to such
code. -/
theorem stays_of_fitsAlong
    (kept : ∀ a, still a = true → ∀ m m', m.Fits → exec a m = .ended m' → m'.Fits)
    {c : Code α} {m : Machine} (h : c.fitsAlong exec still m = true) :
    c.Stays exec Machine.Fits m := by
  have rest_stays : ∀ {c : Code α} {m : Machine}, m.Fits → c.all still = true →
      c.Stays exec Machine.Fits m :=
    fun fits never => stays_of_kept kept (fun _ => Machine.fits_touch) never fits
  induction c generalizing m with
  | nil => exact stays_nil.2 (of_decide_eq_true h)
  | loop body rest =>
    rw [fitsAlong, Bool.and_eq_true, decide_eq_true_eq] at h
    exact rest_stays h.1 h.2
  | leaf a rest ih =>
    rw [fitsAlong, Bool.and_eq_true, decide_eq_true_eq, Bool.or_eq_true] at h
    obtain ⟨fits, never | followed⟩ := h
    · exact rest_stays fits never
    · refine stays_leaf.2 ⟨fits, fun m' run => ?_⟩
      rw [run] at followed
      exact ih followed

end Code

theorem Program.stays_of_fitsAlong {policy : EndOfInput} {p : Program} {m : Machine}
    (h : p.fitsAlong (Command.exec policy) Command.isStill m = true) :
    p.Stays (Command.exec policy) Machine.Fits m :=
  Code.stays_of_fitsAlong Command.fits_of_still h

theorem Packed.stays_of_fitsAlong {policy : EndOfInput} {c : Packed} {m : Machine}
    (h : c.fitsAlong (Op.exec policy) Op.isStill m = true) :
    c.Stays (Op.exec policy) Machine.Fits m :=
  Code.stays_of_fitsAlong Op.fits_of_still h

/-- Three cells to the left, bytes are copied until a zero or the end of the input. -/
def Packed.copyLeft : Packed :=
  .leaf (.move (-3)) <| .leaf (.plain .input) <|
    .loop (.leaf (.plain .output) <| .leaf (.plain .input) .nil) .nil

theorem stays_copyLeft {policy : EndOfInput} (unread : List UInt8) :
    Packed.copyLeft.Stays (Op.exec policy) Machine.Fits { unread } :=
  Packed.stays_of_fitsAlong rfl

/-! ### Lowered code -/

/-- **Flat code refines the packed code it was made from.** Packed code whose operands and jumps fit
can be lowered. Run in batches of any size, where the numbers that the run starts with fit, it ends
exactly if the evaluation does, past the last slot and with the same machine; it wants a byte that
is not there exactly if the evaluation does, at the same cell and with the same output; and nothing
else stops it. -/
theorem flat_run_iff_eval {c : Packed} {m : Machine} (policy : EndOfInput) {batchSteps : Int}
    (packed : c.all Op.isPacked = true) (operands : Flat.operandsFit c = true)
    (room : fitsWord c.slots = true) (hb : 1 ≤ batchSteps)
    (words : Runner.misfit? batchSteps none { machine := m } = none)
    (fits : c.Stays (Op.exec policy) Machine.Fits m) :
    ∃ f, c.lower? = some f ∧
      (∀ m' position,
        (∃ fuel ran, batch fuel policy batchSteps none f { machine := m } = some ran ∧
          ran.fault? = none ∧ ran.machine = m' ∧ ran.position = position) ↔
        position = f.size ∧ ∃ rounds, c.eval (Op.exec policy) rounds m = some (.ended m')) ∧
      (∀ cell written,
        (∃ fuel ran, batch fuel policy batchSteps none f { machine := m } = some ran ∧
          ran.fault? = some (.inputExhausted cell) ∧ ran.machine.written = written) ↔
        ∃ rounds m', c.eval (Op.exec policy) rounds m = some (.exhausted m') ∧
          m'.tape.cursor = cell ∧ m'.written = written) ∧
      ∀ fuel ran, batch fuel policy batchSteps none f { machine := m } = some ran →
        ran.fault? = none ∨ ∃ cell, ran.fault? = some (.inputExhausted cell) := by
  obtain ⟨f, lowered⟩ := Flat.exists_lower? packed operands room
  have holds := Flat.holds_of_lower packed lowered
  refine ⟨f, lowered, fun m' position => ⟨?_, ?_⟩, fun cell written => ⟨?_, ?_⟩, ?_⟩
  · rintro ⟨fuel, ran, run, fault, rfl, rfl⟩
    obtain ⟨e, rfl, rounds, _, o, eval, reports⟩ := Runner.eval_of_batch holds fits hb words run
    cases o with
    | ended x =>
      cases reports
      exact ⟨rfl, rounds, eval⟩
    | exhausted x => exact nomatch reports.1.symm.trans fault
  · rintro ⟨rfl, rounds, eval⟩
    obtain ⟨steps, fuel, e, run, rfl⟩ := Runner.batch_of_eval holds fits hb words eval
    exact ⟨fuel, _, run, rfl, rfl, rfl⟩
  · rintro ⟨fuel, ran, run, fault, rfl⟩
    obtain ⟨e, rfl, rounds, _, o, eval, reports⟩ := Runner.eval_of_batch holds fits hb words run
    cases o with
    | ended x =>
      cases reports
      exact nomatch fault
    | exhausted x =>
      obtain ⟨fault', machine⟩ := reports
      cases fault'.symm.trans fault
      have written : e.2.machine.written = x.written := machine ▸ x.sameStreams_touch.2
      exact ⟨rounds, x, eval, rfl, written.symm⟩
  · rintro ⟨rounds, m', eval, rfl, rfl⟩
    obtain ⟨_, fuel, ⟨fault, r⟩, run, rfl, machine⟩ :=
      Runner.batch_of_eval holds fits hb words eval
    have machine : r.machine = m'.touch := machine
    have written : r.machine.written = m'.written := machine ▸ m'.sameStreams_touch.2
    exact ⟨fuel, _, run, rfl, written⟩
  · intro fuel ran run
    obtain ⟨e, rfl, rounds, _, o, eval, reports⟩ := Runner.eval_of_batch holds fits hb words run
    cases o with
    | ended x =>
      cases reports
      exact .inl rfl
    | exhausted x => exact .inr ⟨_, reports.1⟩

/-- Copying in batches of one step. -/
theorem flat_run_of_copyLeft : ∃ f, Packed.copyLeft.lower? = some f ∧
    ∃ fuel ran, batch fuel .error 1 none f { machine := { unread := [7, 5] } } = some ran ∧
      ran.fault? = some (.inputExhausted (-3)) ∧ ran.machine.written = #[7, 5] := by
  obtain ⟨f, lowered, -, exhausted, -⟩ := flat_run_iff_eval .error (c := Packed.copyLeft)
    (by decide) (by decide) (by decide) (Int.le_refl 1) rfl (stays_copyLeft [7, 5])
  exact ⟨f, lowered, (exhausted (-3) #[7, 5]).2 ⟨4, _, rfl, rfl, rfl⟩⟩

end TapeLang
