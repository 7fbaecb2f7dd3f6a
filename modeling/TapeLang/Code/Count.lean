import TapeLang.Code.Walk

/-! Counting the leaves and loops of nested code.

The count goes through one sequence from its start to its end and lays aside the bodies of the loops
it meets. The body laid aside last comes next, so bodies are counted in another order than they
stand in, and no nesting costs call stack. What is counted is the size (`count_eq_size`). -/
namespace TapeLang.Code
variable {α : Type}

/-- What is left to visit in some sequences. -/
def unvisitedIn : List (Code α) → Nat
  | [] => 0
  | c :: pending => c.unvisited + 1 + unvisitedIn pending

/-- The count from a number on: the rest of one sequence, and behind it the bodies laid aside. -/
def countFrom (counted : Nat) : List (Code α) → Nat
  | [] => counted
  | nil :: aside => countFrom counted aside
  | leaf _ rest :: aside => countFrom (counted + 1) (rest :: aside)
  | loop body rest :: aside => countFrom (counted + 1) (rest :: body :: aside)
termination_by pending => unvisitedIn pending
decreasing_by all_goals simp only [unvisitedIn, Code.unvisited]; omega

/-- How many leaves and loops there are at all depths, from an explicit stack. -/
def count (c : Code α) : Nat := countFrom 0 [c]

theorem countFrom_eq (counted : Nat) (pending : List (Code α)) :
    countFrom counted pending = pending.foldl (fun n c => n + c.size) counted := by
  fun_induction countFrom counted pending with
  | case1 counted => rfl
  | case2 counted aside ih => exact ih
  | case3 counted a rest aside ih =>
    rw [ih, List.foldl_cons, List.foldl_cons, size, Nat.add_right_comm, Nat.add_assoc]
  | case4 counted body rest aside ih =>
    have counts : counted + 1 + rest.size + body.size = counted + (body.size + rest.size + 1) := by
      omega
    rw [ih, List.foldl_cons, List.foldl_cons, List.foldl_cons, size, counts]

/-- **The count is the size.** -/
theorem count_eq_size (c : Code α) : c.count = c.size := by
  rw [count, countFrom_eq, List.foldl_cons, List.foldl_nil, Nat.zero_add]

end TapeLang.Code
