import TapeLang.Machine

/-! What nested code means on the machine.

Given what each leaf does, a sequence runs its elements in order, and a loop runs its body as long
as the cell at the cursor is not zero when it is looked at. A loop may run forever, so the number of
rounds that any one loop may take is bounded; code that needs more has no outcome under that bound,
and a larger bound never changes an outcome (`Code.eval_of_le`). -/
namespace TapeLang

/-- A loop, with what its body does. -/
def repeatWhile (body : Machine → Option Outcome) : Nat → Machine → Option Outcome
  | 0, _ => none
  | rounds + 1, m =>
    let m := m.touch
    if m.current = 0 then some (.ended m)
    else
      match body m with
      | some (.ended m) => repeatWhile body rounds m
      | stopped => stopped

/-- A loop that has an outcome keeps it under a larger bound, and with a body that has an outcome
wherever the first one has. -/
theorem repeatWhile_of_le {body body' : Machine → Option Outcome}
    (h : ∀ m o, body m = some o → body' m = some o) {rounds rounds' : Nat} (le : rounds ≤ rounds')
    {m : Machine} {o : Outcome} (run : repeatWhile body rounds m = some o) :
    repeatWhile body' rounds' m = some o := by
  induction rounds generalizing rounds' m with
  | zero => simp [repeatWhile] at run
  | succ rounds ih =>
    obtain ⟨rounds', rfl⟩ : ∃ k, rounds' = k + 1 := ⟨rounds' - 1, by omega⟩
    simp only [repeatWhile] at run ⊢
    split at run
    · next zero => rw [if_pos zero, run]
    · next nonzero =>
      rw [if_neg nonzero]
      cases hb : body m.touch with
      | none => simp [hb] at run
      | some outcome =>
        rw [hb] at run
        rw [h _ _ hb]
        cases outcome with
        | ended m => exact ih (by omega) run
        | exhausted m => exact run

namespace Code
variable {α : Type}

/-- The outcome of nested code, if no loop takes more than the given number of rounds. -/
def eval (exec : α → Machine → Outcome) (rounds : Nat) : Code α → Machine → Option Outcome
  | nil, m => some (.ended m)
  | leaf a rest, m =>
    match exec a m with
    | .ended m => eval exec rounds rest m
    | .exhausted m => some (.exhausted m)
  | loop body rest, m =>
    match repeatWhile (fun m => eval exec rounds body m) rounds m with
    | some (.ended m) => eval exec rounds rest m
    | stopped => stopped

/-- An outcome stays under a larger bound. -/
theorem eval_of_le {exec : α → Machine → Outcome} {rounds rounds' : Nat} (le : rounds ≤ rounds')
    {c : Code α} {m : Machine} {o : Outcome} (run : c.eval exec rounds m = some o) :
    c.eval exec rounds' m = some o := by
  induction c generalizing m o with
  | nil => exact run
  | leaf a rest ih =>
    simp only [eval] at run ⊢
    cases ha : exec a m with
    | ended m =>
      rw [ha] at run
      exact ih run
    | exhausted m =>
      rw [ha] at run
      exact run
  | loop body rest ihb ihr =>
    simp only [eval] at run ⊢
    cases hb : repeatWhile (fun m => eval exec rounds body m) rounds m with
    | none => simp [hb] at run
    | some outcome =>
      rw [hb] at run
      rw [repeatWhile_of_le (fun _ _ => ihb) le hb]
      cases outcome with
      | ended m => exact ihr run
      | exhausted m => exact run

end Code

end TapeLang
