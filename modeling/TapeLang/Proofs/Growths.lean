import TapeLang.Proofs.FlatRuns
import TapeLang.Proofs.Walking
import TapeLang.Proofs.Weights

/-! The growths of the tape are the same on every way of running.

A machine keeps the growths of its tape in order, and nothing takes one away (`grows_of_exec`,
`grows_of_eval`). Since walking through a program and running its packed code in batches end with
one machine, they have caused the same growths in the same order, not only the same window in the
end (`same_growths`). -/
namespace TapeLang

namespace Machine

/-- Whether a machine has grown from another one, by some growths or none. -/
def Grows (m m' : Machine) : Prop := ∃ caused, m'.growths = m.growths ++ caused

theorem Grows.refl (m : Machine) : m.Grows m := ⟨#[], by simp⟩

theorem Grows.trans {m m' m'' : Machine} (h : m.Grows m') (h' : m'.Grows m'') : m.Grows m'' := by
  obtain ⟨first, hfirst⟩ := h
  obtain ⟨second, hsecond⟩ := h'
  exact ⟨first ++ second, by rw [hsecond, hfirst, Array.append_assoc]⟩

theorem grows_touch (m : Machine) : m.Grows m.touch := by
  unfold touch reach
  split
  · exact .refl m
  · next g _ => exact ⟨#[g], by simp⟩

theorem grows_input {policy : EndOfInput} {m m' : Machine} (run : m.input policy = .ended m') :
    m.Grows m' := by
  rcases input_ended run with ⟨byte, unread, rfl⟩ | rfl | rfl
  · exact grows_touch { m with unread }
  · exact m.grows_touch
  · exact m.grows_touch

end Machine

theorem grows_of_exec {policy : EndOfInput} {c : Command} {m m' : Machine}
    (run : c.exec policy m = .ended m') : m.Grows m' := by
  cases c with
  | input => exact Machine.grows_input run
  | advance =>
    cases run
    exact .refl m
  | retreat =>
    cases run
    exact .refl m
  | increment =>
    cases run
    exact m.grows_touch
  | decrement =>
    cases run
    exact m.grows_touch
  | output =>
    cases run
    exact m.grows_touch

/-- A program that ends has only added growths. -/
theorem grows_of_eval {policy : EndOfInput} {p : Program} {m m' : Machine} {rounds : Nat}
    (eval : p.eval (Command.exec policy) rounds m = some (.ended m')) : m.Grows m' := by
  obtain ⟨n, reaches⟩ := Code.reaches_of_eval eval
  have kept : (Stage.settled (.ended m')).Has m.Grows :=
    Code.kept_of_reaches (fun c _ x x' grown run => grown.trans (grows_of_exec run))
      (fun x grown => grown.trans x.grows_touch) p.all_true (.refl m) reaches
  exact kept

/-! ### A tape that grows on both sides -/

/-- Bytes on both sides of a cell that is counted down: `+>+<[-]<+`. -/
def Program.aroundZero : Program :=
  .leaf .increment <| .leaf .advance <| .leaf .increment <| .leaf .retreat <|
    .loop (.leaf .decrement .nil) <| .leaf .retreat <| .leaf .increment .nil

theorem optimize_aroundZero : Packed.optimize 2 Program.aroundZero =
    (.leaf (.add 1) <| .leaf (.move 1) <| .leaf (.add 1) <| .leaf (.move (-1)) <|
      .leaf .clear <| .leaf (.move (-1)) <| .leaf (.add 1) .nil) := by
  rw [Packed.optimize_eq]
  rfl

theorem stays_aroundZero :
    (Packed.optimize 2 Program.aroundZero).Stays (Op.exec .error) Machine.Fits {} := by
  rw [optimize_aroundZero]
  exact Packed.stays_of_fitsAlong rfl

/-! ### The same growths -/

/-- **Both ways of running cause the same growths, in the same order and of the same sizes.** If the
walk through a program ends normally, its packed code can be lowered at any level, and run in
batches of any size, where the numbers that the run starts with fit, it ends normally too, on a tape
that has grown by the same growths one after the other. -/
theorem same_growths {p : Program} {m : Machine} {policy : EndOfInput} {limit : Option Int}
    {steps fuel : Nat} {w : Walker} {level batchSteps : Int}
    (short : fitsWord (2 * p.size : Nat) = true) (hb : 1 ≤ batchSteps)
    (words : Runner.misfit? batchSteps none { machine := m } = none)
    (fits : (Packed.optimize level p).Stays (Op.exec policy) Machine.Fits m)
    (walked : (Walker.start p m steps).run policy limit fuel = some (none, w)) :
    ∃ f, (Packed.optimize level p).lower? = some f ∧
      ∃ fuel' ran, batch fuel' policy batchSteps none f { machine := m } = some ran ∧
        ran.fault? = none ∧ ∃ caused, w.machine.growths = m.growths ++ caused ∧
          ran.machine.growths = m.growths ++ caused := by
  obtain ⟨f, lowered⟩ := Packed.lower_optimize level short
  have holds := Flat.holds_of_lower (Packed.isPacked_optimize level p) lowered
  obtain ⟨rounds, _, o, eval, reports⟩ := Walker.eval_of_run (Walker.run_unlimited walked)
  cases o with
  | exhausted x => exact nomatch reports.1
  | ended x =>
    cases reports
    obtain ⟨rounds', packedEval⟩ := (Packed.eval_optimize_iff level policy p m _).2 ⟨rounds, eval⟩
    obtain ⟨taken, fuel', e, run, rfl⟩ := Runner.batch_of_eval holds fits hb words packedEval
    obtain ⟨caused, grown⟩ := grows_of_eval eval
    exact ⟨f, lowered, fuel', _, run, rfl, caused, grown, grown⟩

/-- The growths to the right come before the one to the left on both ways. -/
theorem same_growths_aroundZero :
    ∃ f, (Packed.optimize 2 Program.aroundZero).lower? = some f ∧
      ∃ fuel ran, batch fuel .error 3 none f { machine := {} } = some ran ∧ ran.fault? = none ∧
        ran.machine.growths = #[⟨.right, 1, 0, 1⟩, ⟨.right, 1, 0, 2⟩, ⟨.left, 1, 1, 3⟩] := by
  have walked : (Walker.start Program.aroundZero {} 0).run .error none 30 = some (none,
      ⟨[], ⟨⟨#[1, 0, 1], 1, -1⟩, [], #[],
        #[⟨.right, 1, 0, 1⟩, ⟨.right, 1, 0, 2⟩, ⟨.left, 1, 1, 3⟩]⟩, 9⟩) := by
    rfl
  obtain ⟨f, lowered, fuel, ran, run, ends, caused, grown, same⟩ :=
    same_growths (by decide) (by decide : (1 : Int) ≤ 3) rfl stays_aroundZero walked
  exact ⟨f, lowered, fuel, ran, run, ends, same.trans grown.symm⟩

end TapeLang
