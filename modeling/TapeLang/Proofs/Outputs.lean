import TapeLang.Proofs.FlatRuns
import TapeLang.Proofs.Passes
import TapeLang.Proofs.Walking
import TapeLang.Proofs.Weights

/-! The output of runs, with or without an end.

A run that never ends has no result, but it writes bytes, one at each place of the output. Nothing
takes a byte back (`Machine.Prints`), so a byte that is written at a place is there from some
transition on. An evaluation writes a byte if it passes through a machine that has it
(`Code.Writes`); shortening code changes none (`Shortens.writes_iff`). A walk writes the bytes that
the evaluation of the program writes (`Walker.writes_iff`). So does a run in batches, as long as the
machines fit, and what is written at a place needs only those up to the moment at which it is
written (`Runner.writes_of_until`, `Runner.exists_writes`). Hence both write the same bytes at the
same places (`same_outputs`). -/
namespace TapeLang
open Course (Shows Lasts Leads)

namespace Machine
variable {m m' m'' : Machine} {policy : EndOfInput}

/-- What has been written stays, and more may follow it. -/
def Prints (m m' : Machine) : Prop := ∃ more, m'.written = m.written ++ more

theorem Prints.of_eq (h : m'.written = m.written) : m.Prints m' := ⟨#[], by simp [h]⟩

theorem Prints.getElem? (h : m.Prints m') {place : Nat} {byte : UInt8}
    (here : m.written[place]? = some byte) : m'.written[place]? = some byte := by
  obtain ⟨more, h⟩ := h
  obtain ⟨inside, -⟩ := Array.getElem?_eq_some_iff.1 here
  rw [h, Array.getElem?_append_left inside, here]

theorem prints_output (m : Machine) : m.Prints m.output :=
  ⟨#[m.touch.current], by simp [output, emit, m.sameStreams_touch.2]⟩

theorem written_input (run : m.input policy = .ended m') : m'.written = m.written := by
  rcases input_ended run with ⟨byte, unread, rfl⟩ | rfl | rfl
  · exact (sameStreams_write { m with unread } byte.toNat).2
  · exact (m.sameStreams_write 0).2
  · exact m.sameStreams_touch.2

/-- Reading that fails leaves the machine as it is. -/
theorem eq_of_input_exhausted (run : m.input policy = .exhausted m') : m' = m := by
  unfold input at run
  split at run
  · cases run
  · cases policy <;> cases run
    rfl

end Machine

variable {policy : EndOfInput} {m m' : Machine}

theorem Command.prints_exec {c : Command} (run : c.exec policy m = .ended m') : m.Prints m' := by
  cases c with
  | input => exact .of_eq (Machine.written_input run)
  | output =>
    cases run
    exact m.prints_output
  | advance =>
    cases run
    exact .of_eq rfl
  | retreat =>
    cases run
    exact .of_eq rfl
  | increment =>
    cases run
    exact .of_eq (m.sameStreams_adjust 1).2
  | decrement =>
    cases run
    exact .of_eq (m.sameStreams_adjust (-1)).2

theorem Command.eq_of_exhausted {c : Command} (run : c.exec policy m = .exhausted m') :
    m' = m := by
  cases c with
  | input => exact Machine.eq_of_input_exhausted run
  | _ => cases run

theorem Op.eq_of_exhausted {op : Op} (run : op.exec policy m = .exhausted m') : m' = m := by
  cases op with
  | plain c => exact Command.eq_of_exhausted run
  | _ => cases run

/-! ### Bytes that an evaluation writes -/

namespace Code
variable {α : Type} {exec : α → Machine → Outcome} {c d : Code α} {place : Nat} {byte : UInt8}

/-- An evaluation comes to have a byte at a place of the output. -/
def Writes (exec : α → Machine → Outcome) (c : Code α) (m : Machine) (place : Nat)
    (byte : UInt8) : Prop :=
  ∃ n x, c.Reaches exec m n (.amid x) ∧ x.written[place]? = some byte

theorem Shortens.writes_iff (h : Shortens exec c d) :
    d.Writes exec m place byte ↔ c.Writes exec m place byte := by
  constructor
  · rintro ⟨n, x, hx, here⟩
    obtain ⟨k, -, hk⟩ := h.backward hx
    exact ⟨k, x, hk, here⟩
  · rintro ⟨n, x, hx, here⟩
    obtain ⟨k, -, s, hs, same⟩ := h.forward hx
    cases s with
    | amid y => exact ⟨k, y, hs, same.2 ▸ here⟩
    | settled o => exact same.elim

/-- Every machine that the evaluation passes through has a property, up to the moment at which more
than a number of bytes have been written, and at that moment. -/
def StaysUntil (exec : α → Machine → Outcome) (P : Machine → Prop) (bytes : Nat) (c : Code α)
    (m : Machine) : Prop :=
  ∀ n x, c.Reaches exec m n (.amid x) →
    (∀ k < n, ∀ y, c.Reaches exec m k (.amid y) → y.written.size ≤ bytes) → P x

variable {P : Machine → Prop}

/-- A machine that has a byte at a place is reached after a number of steps that keep to the
property. -/
theorem StaysUntil.first (stays : c.StaysUntil exec P place m) {n : Nat} {x : Machine}
    (hx : c.Reaches exec m n (.amid x)) (long : place < x.written.size) :
    ∃ k y, c.Reaches exec m k (.amid y) ∧ place < y.written.size ∧ c.StaysFor exec P k m := by
  induction n using Nat.strongRecOn generalizing x with
  | ind n ih =>
    by_cases earlier : ∃ k < n, ∃ y, c.Reaches exec m k (.amid y) ∧ place < y.written.size
    · obtain ⟨k, less, y, hy, long⟩ := earlier
      exact ih k less hy long
    · refine ⟨n, x, hx, long, fun k le y hy => stays k y hy fun j less z hz => ?_⟩
      exact Nat.le_of_not_lt fun long => earlier ⟨j, by omega, z, hz, long⟩

/-- Where no byte is ever written at a place, the property is kept for ever. -/
theorem StaysUntil.stays (stays : c.StaysUntil exec P place m)
    (never : ∀ n x, c.Reaches exec m n (.amid x) → ¬ place < x.written.size) :
    c.Stays exec P m :=
  fun n x hx => stays n x hx fun k _ y hy => Nat.le_of_not_lt (never k y hy)

theorem Stays.staysUntil (stays : c.Stays exec P m) (bytes : Nat) :
    c.StaysUntil exec P bytes m :=
  fun n x hx _ => stays n x hx

/-- A state that has a byte has it from the evaluation that the system follows, if the stage ahead
of it goes with what the system has written. -/
theorem writes_of_ahead {σ ε : Type} {step : σ → σ ⊕ ε} {left : ε → σ} {view : σ → Machine}
    {amid : Machine → σ → Prop} {failed : Machine → ε → Prop} {behind : Machine → σ} {s : σ}
    {n : Nat} {stage : Stage}
    (lasts : Lasts step left fun s => (view s).written[place]? = some byte)
    (shown : ∀ x s, amid x s → (view s).written = x.written)
    (shownBehind : ∀ x, (view (behind x)).written = x.written)
    (shownFailed : ∀ x e, failed x e → (view (left e)).written = x.written)
    (quiet : ∀ a y x, exec a y = .exhausted x → x = y)
    (reaches : c.Reaches exec m n stage) (ahead : Follows step amid failed behind s stage)
    (here : (view s).written[place]? = some byte) : c.Writes exec m place byte := by
  match stage with
  | .amid x =>
    obtain ⟨s', leads, there⟩ := ahead
    exact ⟨n, x, reaches, shown x s' there ▸ lasts.ahead leads here⟩
  | .settled (.ended x) =>
    exact ⟨n, x, amid_of_ended reaches, shownBehind x ▸ lasts.ahead ahead here⟩
  | .settled (.exhausted x) =>
    obtain ⟨e, halts, there⟩ := ahead
    obtain ⟨y, a, hy, fails⟩ := amid_of_exhausted reaches
    obtain rfl := quiet a y x fails
    exact ⟨n, x, hy, shownFailed x e there ▸ lasts.result halts here⟩

end Code

/-- The packed code of a program writes at every level what the program writes. -/
theorem Packed.writes_optimize_iff {level : Int} {p : Program} {place : Nat} {byte : UInt8} :
    (optimize level p).Writes (Op.exec policy) m place byte ↔
      p.Writes (Command.exec policy) m place byte := by
  rw [optimize, (applyAll_shortens (passesAt level) (ofProgram p)).writes_iff]
  simp only [Code.Writes, reaches_ofProgram]

/-! ### Walks -/

namespace Walker
variable {place : Nat} {byte : UInt8}

/-- The walk without a limit comes to have a byte at a place of the output. -/
def Writes (policy : EndOfInput) (w : Walker) (place : Nat) (byte : UInt8) : Prop :=
  Shows (move policy none) Prod.snd (fun w => w.machine.written[place]? = some byte) w

/-- A transition counts no steps back and takes no byte back. -/
theorem move_inl {w w' : Walker} (h : move policy none w = .inl w') :
    w.steps ≤ w'.steps ∧ w.machine.Prints w'.machine := by
  cases goesOn_of_move h with
  | leave frames m steps => exact ⟨Nat.le_refl _, .of_eq rfl⟩
  | leaf run rest frames steps => exact ⟨Nat.le_succ _, Command.prints_exec run⟩
  | @skip m zero body rest frames steps => exact ⟨Nat.le_succ _, .of_eq m.sameStreams_touch.2⟩
  | @enter m nonzero body rest frames steps => exact ⟨Nat.le_succ _, .of_eq m.sameStreams_touch.2⟩

/-- A walk that stops leaves the machine as it is. -/
theorem move_inr {w : Walker} {e : Option RunFault × Walker} (h : move policy none w = .inr e) :
    e.2.machine = w.machine := by
  obtain rfl | ⟨c, m', run, rfl⟩ := stops_of_move h
  · rfl
  · exact Command.eq_of_exhausted run

theorem lasts (policy : EndOfInput) (place : Nat) (byte : UInt8) :
    Lasts (move policy none) Prod.snd fun w => w.machine.written[place]? = some byte where
  goes h here := (move_inl h).2.getElem? here
  stops h here := by rw [move_inr h, here]

/-- **A walk writes the bytes that the evaluation of the program writes.** -/
theorem writes_iff {p : Program} {steps : Nat} :
    (start p m steps).Writes policy place byte ↔ p.Writes (Command.exec policy) m place byte := by
  constructor
  · intro h
    obtain ⟨w, leads, here⟩ := h.passed_of_quiet fun w e stop shown => by
      rw [← move_inr stop, shown]
    obtain ⟨n, s, reaches, ahead⟩ := Code.stage_ahead Walker.steps
      (fun _ _ h => follows h [] steps) (fun n _ _ here => here.2 ▸ Nat.le_add_left n steps)
      (fun _ _ => rfl) (fun _ _ goes => (move_inl goes).1) leads
    exact Code.writes_of_ahead (lasts policy place byte) (fun _ _ h => congrArg _ h.1)
      (fun _ => rfl) (fun _ _ h => congrArg _ h.2.1) (fun _ _ _ => Command.eq_of_exhausted) reaches
      ahead here
  · rintro ⟨n, x, reaches, here⟩
    obtain ⟨w, leads, rfl, -⟩ := follows reaches [] steps
    exact .of_leads leads here

theorem writes_unique {w : Walker} {byte' : UInt8} (h : w.Writes policy place byte)
    (h' : w.Writes policy place byte') : byte = byte' := by
  obtain ⟨w, here, here'⟩ := h.both (lasts policy place byte) (lasts policy place byte') h'
  exact Option.some.inj (here.symm.trans here')

end Walker

/-! ### Runs of flat code -/

namespace Runner
variable {f : Flat} {limit : Option Int} {place : Nat} {byte : UInt8} {batchSteps : Int}

/-- The run in batches without a limit comes to have a byte at a place of the output. A run that is
given a number that does not fit into a word has only what is written before it. -/
def Writes (f : Flat) (policy : EndOfInput) (batchSteps : Int) (r : Runner) (place : Nat)
    (byte : UInt8) : Prop :=
  match r.misfit? batchSteps none with
  | some _ => r.machine.written[place]? = some byte
  | none =>
    Shows (fun r => (turn f policy batchSteps none r).asSum) Prod.snd
      (fun r => r.machine.written[place]? = some byte) r

/-- A service counts no steps back and takes no byte back. -/
theorem serve_inl {stop : Stop} {r r' : Runner}
    (h : (serve policy none stop r).asSum = .inl r') :
    r.steps ≤ r'.steps ∧ r.machine.Prints r'.machine := by
  cases stop with
  | ended => cases h
  | astray => cases h
  | output =>
    cases h
    exact ⟨Nat.le_succ _, r.machine.prints_output⟩
  | grow =>
    cases h
    exact ⟨Nat.le_refl _, .of_eq r.machine.sameStreams_touch.2⟩
  | budget =>
    cases h
    exact ⟨Nat.le_refl _, .of_eq rfl⟩
  | input =>
    rw [serve_input] at h
    cases run : r.machine.input policy with
    | ended m' =>
      rw [run] at h
      cases h
      exact ⟨Nat.le_succ _, .of_eq (Machine.written_input run)⟩
    | exhausted m' =>
      rw [run] at h
      cases h

/-- A service that stops the run leaves the runner as it is. -/
theorem serve_inr {stop : Stop} {r : Runner} {e : Option RunFault × Runner}
    (h : (serve policy none stop r).asSum = .inr e) : e.2 = r := by
  cases stop with
  | ended =>
    cases h
    rfl
  | astray =>
    cases h
    rfl
  | output => cases h
  | grow => cases h
  | budget => cases h
  | input =>
    rw [serve_input] at h
    cases run : r.machine.input policy with
    | ended m' =>
      rw [run] at h
      cases h
    | exhausted m' =>
      rw [run] at h
      cases h
      rw [Machine.eq_of_input_exhausted run]

theorem advance_inl {r r' : Runner} (h : advance f policy none r = .inl r') :
    r.steps ≤ r'.steps ∧ r.machine.Prints r'.machine := by
  by_cases past : (f.size : Int) ≤ r.position
  · exact nomatch (advance_past rfl past).symm.trans h
  cases hs : Batch.step f ⟨r.machine.tape, r.position, 0⟩ with
  | running b =>
    cases (advance_running rfl past hs).symm.trans h
    exact ⟨Nat.le_add_right _ _, .of_eq rfl⟩
  | stopped stop b => exact serve_inl ((advance_stopped rfl past hs).symm.trans h)

/-- A run that stops leaves the runner as it is. -/
theorem advance_inr {r : Runner} {e : Option RunFault × Runner}
    (h : advance f policy none r = .inr e) : e.2 = r := by
  by_cases past : (f.size : Int) ≤ r.position
  · cases (advance_past rfl past).symm.trans h
    rfl
  cases hs : Batch.step f ⟨r.machine.tape, r.position, 0⟩ with
  | running b => exact nomatch (advance_running rfl past hs).symm.trans h
  | stopped stop b => exact serve_inr ((advance_stopped rfl past hs).symm.trans h)

theorem lasts (f : Flat) (policy : EndOfInput) (place : Nat) (byte : UInt8) :
    Lasts (advance f policy none) Prod.snd fun r => r.machine.written[place]? = some byte where
  goes h here := (advance_inl h).2.getElem? here
  stops h here := by rw [advance_inr h, here]

section
variable {r : Runner} (hb : 1 ≤ batchSteps)
include hb

section
variable (words : r.misfit? batchSteps none = none)
include words

/-- What is written does not depend on the size of the batches. -/
theorem writes_iff_advance :
    r.Writes f policy batchSteps place byte ↔
      Shows (advance f policy none) Prod.snd
        (fun r => r.machine.written[place]? = some byte) r := by
  simp only [Writes, words]
  refine Course.shows_iff_of_coarser (lasts f policy place byte) (fun r r' goes => ?_)
    (fun r e stop => ?_)
  · have spec := turn_spec f policy none hb r
    rw [goes] at spec
    exact spec
  · have spec := turn_spec f policy none hb r
    rw [stop] at spec
    exact spec

theorem writes_unique {byte' : UInt8} (h : r.Writes f policy batchSteps place byte)
    (h' : r.Writes f policy batchSteps place byte') : byte = byte' := by
  rw [writes_iff_advance hb words] at h h'
  obtain ⟨r, here, here'⟩ := h.both (lasts f policy place byte) (lasts f policy place byte') h'
  exact Option.some.inj (here.symm.trans here')

end

/-- A run that stops has written what is there in the end. -/
theorem writes_iff_of_batch {fuel : Nat} {ran : Ran}
    (run : batch fuel policy batchSteps none f r = some ran) :
    r.Writes f policy batchSteps place byte ↔ ran.machine.written[place]? = some byte := by
  cases words : r.misfit? batchSteps none with
  | some number =>
    cases (batch_of_misfit words fuel).symm.trans run
    simp only [Writes, words]
    rfl
  | none =>
    obtain ⟨e, halts, rfl⟩ := (batch_iff_halts words hb).1 ⟨fuel, run⟩
    rw [writes_iff_advance hb words]
    exact (lasts f policy place byte).shows_iff halts

end

section
variable {c : Packed} (holds : f.Holds c 0 f.size) (hb : 1 ≤ batchSteps)
  (words : misfit? batchSteps none { machine := m } = none)
include holds hb words

/-- Where the evaluation writes a byte at a place, a run writes one there that the evaluation
writes. -/
theorem writes_of_until (fits : c.StaysUntil (Op.exec policy) Machine.Fits place m)
    (h : c.Writes (Op.exec policy) m place byte) :
    ∃ byte, c.Writes (Op.exec policy) m place byte ∧
      Writes f policy batchSteps { machine := m } place byte := by
  obtain ⟨n, x, hx, here⟩ := h
  obtain ⟨k, y, hy, long, fitsFor⟩ := fits.first hx (Array.getElem?_eq_some_iff.1 here).1
  have written : y.written[place]? = some y.written[place] := Array.getElem?_eq_getElem long
  refine ⟨y.written[place], ⟨k, y, hy, written⟩, (writes_iff_advance hb words).2 ?_⟩
  obtain ⟨r, leads, rfl, -⟩ := follows hy holds fitsFor 0
  exact .of_leads leads written

/-- Where a run writes a byte at a place, the evaluation writes one there. -/
theorem exists_writes (fits : c.StaysUntil (Op.exec policy) Machine.Fits place m)
    (h : Writes f policy batchSteps { machine := m } place byte) :
    ∃ byte, c.Writes (Op.exec policy) m place byte := by
  by_cases some_long : ∃ n x, c.Reaches (Op.exec policy) m n (.amid x) ∧ place < x.written.size
  · obtain ⟨n, x, hx, long⟩ := some_long
    exact ⟨x.written[place], n, x, hx, Array.getElem?_eq_getElem long⟩
  · -- Then all machines fit, and the evaluation can be followed as far as the run has come.
    have fits := fits.stays fun n x hx long => some_long ⟨n, x, hx, long⟩
    obtain ⟨r, leads, here⟩ := ((writes_iff_advance hb words).1 h).passed_of_quiet
      fun r e stop shown => by rw [← advance_inr stop, shown]
    obtain ⟨n, s, reaches, ahead⟩ := Code.stage_ahead Runner.steps
      (fun n _ h => follows h holds (fits.staysFor n) 0)
      (fun n _ _ here => here.2 ▸ Nat.le_add_left n 0) (fun n _ => advance_end (0 + n))
      (fun _ _ goes => (advance_inl goes).1) leads
    refine ⟨byte, Code.writes_of_ahead (lasts f policy place byte) (fun _ _ h => congrArg _ h.1)
      (fun _ => rfl) (fun x _ h => ?_) (fun _ _ _ => Op.eq_of_exhausted) reaches ahead here⟩
    exact (congrArg _ h.2.1).trans x.sameStreams_touch.2

end

end Runner

/-! ### A program without an end -/

/-- A byte to the left is switched off and on for ever: `<+[.[-].+]`. -/
def Program.blink : Program :=
  .leaf .retreat <| .leaf .increment <|
    .loop (.leaf .output <| .loop (.leaf .decrement .nil) <| .leaf .output <|
      .leaf .increment .nil) .nil

theorem stays_blink :
    (Packed.optimize 2 Program.blink).Stays (Op.exec .error) Machine.Fits {} :=
  Packed.stays_optimize (Program.stays_of_fitsAlong rfl) 2

/-! ### The same output -/

/-- **A walk and a run in batches write the same output, whether they end or not.** At each place
behind what has been written before, one writes a byte exactly if the other does, and it is the same
byte. For a place only what happens up to the writing of its byte matters: so far the cursor and the
index of its cell have to fit into words, as do the numbers that the run in batches starts with. If
that run stops, it has written what is there then. -/
theorem same_outputs {p : Program} {m : Machine} {policy : EndOfInput} {level batchSteps : Int}
    (n : Nat) (short : fitsWord (2 * p.size : Nat) = true) (hb : 1 ≤ batchSteps)
    (words : Runner.misfit? batchSteps none { machine := m } = none)
    (fits : (Packed.optimize level p).StaysUntil (Op.exec policy) Machine.Fits
      (m.written.size + n) m) :
    ∃ f, (Packed.optimize level p).lower? = some f ∧
      ((∃ byte, (Walker.start p m 0).Writes policy (m.written.size + n) byte) ↔
        ∃ byte, Runner.Writes f policy batchSteps { machine := m } (m.written.size + n) byte) ∧
      (∀ byte byte', (Walker.start p m 0).Writes policy (m.written.size + n) byte →
        Runner.Writes f policy batchSteps { machine := m } (m.written.size + n) byte' →
        byte = byte') ∧
      ∀ fuel ran, batch fuel policy batchSteps none f { machine := m } = some ran →
        ∀ byte, Runner.Writes f policy batchSteps { machine := m } (m.written.size + n) byte ↔
          ran.machine.written[m.written.size + n]? = some byte := by
  obtain ⟨f, lowered⟩ := Packed.lower_optimize level short
  have holds := Flat.holds_of_lower (Packed.isPacked_optimize level p) lowered
  generalize m.written.size + n = place at fits ⊢
  have walk_iff : ∀ byte, (Walker.start p m 0).Writes policy place byte ↔
      (Packed.optimize level p).Writes (Op.exec policy) m place byte := by
    intro byte
    rw [Walker.writes_iff, Packed.writes_optimize_iff]
  -- One byte that both write is enough, since neither writes another one at that place.
  have meet : ∀ byte, (Walker.start p m 0).Writes policy place byte →
      Runner.Writes f policy batchSteps { machine := m } place byte := by
    intro byte walked
    obtain ⟨byte', written, ran⟩ :=
      Runner.writes_of_until holds hb words fits ((walk_iff byte).1 walked)
    rwa [Walker.writes_unique walked ((walk_iff byte').2 written)]
  refine ⟨f, lowered, ⟨?_, ?_⟩, ?_, fun fuel ran run byte => Runner.writes_iff_of_batch hb run⟩
  · rintro ⟨byte, walked⟩
    exact ⟨byte, meet byte walked⟩
  · rintro ⟨byte, ran⟩
    obtain ⟨byte', written⟩ := Runner.exists_writes holds hb words fits ran
    exact ⟨byte', (walk_iff byte').2 written⟩
  · intro byte byte' walked ran
    exact Runner.writes_unique hb words (meet byte walked) ran

/-- The fourth byte of the output without an end is zero on both ways. -/
theorem same_outputs_blink :
    ∃ f, (Packed.optimize 2 Program.blink).lower? = some f ∧
      (Walker.start Program.blink {} 0).Writes .error 3 0 ∧
      Runner.Writes f .error 2 { machine := {} } 3 0 := by
  have walked : (Walker.start Program.blink {} 0).Writes .error 3 0 := ⟨26, rfl⟩
  obtain ⟨f, lowered, both, same, -⟩ := same_outputs (m := {}) 3 (by decide)
    (by decide : (1 : Int) ≤ 2) rfl (stays_blink.staysUntil _)
  obtain ⟨byte, ran⟩ := both.1 ⟨0, walked⟩
  cases same 0 byte walked ran
  exact ⟨f, lowered, walked, ran⟩

end TapeLang
