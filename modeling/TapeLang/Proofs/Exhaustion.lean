import TapeLang.Proofs.FlatRuns
import TapeLang.Proofs.Walking
import TapeLang.Proofs.Weights

/-! What is left when the input is exhausted.

A walk and a run in batches want a byte that is not there at the same cell, with the same bytes
written and the same bytes on the tape. They differ in one thing: the walk asks for the byte before
it touches the cell, the run in batches has made the cell stored by then. So the windows are
the same exactly if the cell has been stored before (`exhausted_runs`), and at a cell that no
command has touched they are not (`exhausted_windows_differ`). -/
namespace TapeLang

/-- A byte is read into the cell to the right of the only one touched: `+>,`. -/
def Program.readBeyond : Program :=
  .leaf .increment <| .leaf .advance <| .leaf .input .nil

theorem optimize_readBeyond : Packed.optimize 2 Program.readBeyond =
    (.leaf (.add 1) <| .leaf (.move 1) <| .leaf (.plain .input) .nil) := by
  rw [Packed.optimize_eq]
  rfl

theorem stays_readBeyond :
    (Packed.optimize 2 Program.readBeyond).Stays (Op.exec .error) Machine.Fits {} :=
  Packed.stays_optimize (Program.stays_of_fitsAlong rfl) 2

/-- **A walk and a run in batches that want a byte which is not there are left alike, up to the cell
that it was wanted for.** If the walk through a program fails for want of input, so does the run of
its packed code at any level, at the same cell, with the same output, the same cursor and the same
byte at every address; and the window is the same exactly if the cell at the cursor was stored
already. -/
theorem exhausted_runs {p : Program} {m : Machine} {steps fuel : Nat} {cell : Int} {w : Walker}
    {level batchSteps : Int} (short : fitsWord (2 * p.size : Nat) = true) (hb : 1 ≤ batchSteps)
    (fits : (Packed.optimize level p).Stays (Op.exec .error) Machine.Fits m)
    (walked : (Walker.start p m steps).run .error none fuel =
      some (some (.inputExhausted cell), w)) :
    ∃ f, (Packed.optimize level p).lower? = some f ∧
      ∃ fuel' r, Runner.run f .error batchSteps none fuel' { machine := m } =
          some (some (.inputExhausted cell), r) ∧
        r.machine.written = w.machine.written ∧ r.machine.unread = w.machine.unread ∧
        r.machine.tape.cursor = w.machine.tape.cursor ∧
        (∀ address, r.machine.tape.peek address = w.machine.tape.peek address) ∧
        ((r.machine.tape.originOffset = w.machine.tape.originOffset ∧
          r.machine.tape.size = w.machine.tape.size) ↔ w.machine.Stored) := by
  obtain ⟨f, lowered⟩ := Packed.lower_optimize level short
  have holds := Flat.holds_of_lower (Packed.isPacked_optimize level p) lowered
  obtain ⟨rounds, _, o, eval, reports⟩ := Walker.eval_of_run walked
  cases o with
  | ended x => exact nomatch reports
  | exhausted x =>
    obtain ⟨fault, rfl, -⟩ := reports
    obtain ⟨rounds', packedEval⟩ :=
      (Packed.eval_optimize_iff level .error p m _).2 ⟨rounds, eval⟩
    obtain ⟨_, fuel', ⟨fault', r⟩, run, fault'_eq, touched⟩ :=
      Runner.run_of_eval holds fits hb packedEval
    have touched : r.machine = w.machine.touch := touched
    cases fault'_eq.trans fault.symm
    refine ⟨f, lowered, fuel', r, run, ?_⟩
    rw [touched]
    refine ⟨w.machine.sameStreams_touch.2, w.machine.sameStreams_touch.1,
      w.machine.cursor_touch, w.machine.peek_touch, fun same => ?_, fun stored => ?_⟩
    · exact w.machine.size_touch_eq_iff.1 same.2
    · rw [Machine.touch_of_stored stored]
      exact ⟨rfl, rfl⟩

/-- Where the byte is wanted beyond the window, the run in batches is left with the same bytes. -/
theorem exhausted_runs_readBeyond :
    ∃ f, (Packed.optimize 2 Program.readBeyond).lower? = some f ∧
      ∃ fuel r, Runner.run f .error 2 none fuel { machine := {} } =
          some (some (.inputExhausted 1), r) ∧
        ∀ address, r.machine.tape.peek address = if address = 0 then 1 else 0 := by
  have walked : (Walker.start Program.readBeyond {} 0).run .error none 4 = some
      (some (.inputExhausted 1),
        ⟨[.leaf .input .nil], ⟨⟨#[1], 0, 1⟩, [], #[], #[⟨.right, 1, 0, 1⟩]⟩, 3⟩) := by
    rfl
  obtain ⟨f, lowered, fuel, r, run, -, -, -, bytes, -⟩ :=
    exhausted_runs (by decide) (by decide : (1 : Int) ≤ 2) stays_readBeyond walked
  refine ⟨f, lowered, fuel, r, run, fun address => (bytes address).trans ?_⟩
  by_cases below : address < 0
  · simp [Tape.peek, Tape.index, below, show ¬address = 0 by omega]
  · obtain ⟨n, rfl⟩ := Int.eq_ofNat_of_zero_le (Int.not_lt.1 below)
    cases n with
    | zero => rfl
    | succ n =>
      simp [Tape.peek, Tape.index]
      omega

/-- At a cell that no command has touched the walk leaves the window as it is, and the run in
batches does not. -/
theorem exhausted_windows_differ :
    ∃ f w r, (Packed.optimize 2 Program.readBeyond).lower? = some f ∧
      (Walker.start Program.readBeyond {} 0).run .error none 4 =
        some (some (.inputExhausted 1), w) ∧
      Runner.run f .error 1000000 none 4 { machine := {} } =
        some (some (.inputExhausted 1), r) ∧
      w.machine.tape.size = 1 ∧ r.machine.tape.size = 2 := by
  rw [optimize_readBeyond]
  refine ⟨_, _, _, rfl, rfl, rfl, rfl, rfl⟩

end TapeLang
