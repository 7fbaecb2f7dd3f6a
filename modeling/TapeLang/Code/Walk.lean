import TapeLang.Code

/-! Changing every body of a nested sequence.

`transform` says what is wanted: leaves are mapped, and each body, innermost first, goes
through a change that sees one level at a time. `walk` does the same from an explicit stack of
suspended bodies, so that no nesting, however deep, costs call stack. The two agree
(`walk_eq_transform`). -/
namespace TapeLang.Code
variable {α β : Type}

/-- The sequence with its leaves mapped and the body of each loop changed, but not the top
level itself. -/
def transformInside (onLeaf : α → β) (onBody : Code β → Code β) : Code α → Code β
  | nil => nil
  | leaf a rest => leaf (onLeaf a) (rest.transformInside onLeaf onBody)
  | loop body rest =>
    loop (onBody (body.transformInside onLeaf onBody)) (rest.transformInside onLeaf onBody)

/-- Every body changed, innermost first and the top level last, after its leaves are mapped. -/
def transform (onLeaf : α → β) (onBody : Code β → Code β) (c : Code α) : Code β :=
  onBody (c.transformInside onLeaf onBody)

/-- A body left at one of its loops. -/
structure Suspended (α β : Type) where
  /-- What follows the loop. -/
  rest : Code α
  /-- What has been built of the body so far, last first. -/
  built : Code β

/-- What is left to visit in a sequence. A loop costs its entry and its exit. -/
def unvisited : Code α → Nat
  | nil => 0
  | leaf _ rest => rest.unvisited + 1
  | loop body rest => body.unvisited + rest.unvisited + 2

/-- What is left to visit in the suspended bodies. -/
def Suspended.unvisited : List (Suspended α β) → Nat
  | [] => 0
  | s :: stack => s.rest.unvisited + 1 + Suspended.unvisited stack

/-- The walk with some bodies suspended, innermost first, in the middle of one body: what is left
of it and what has been built of it, last first. -/
def walkFrom (onLeaf : α → β) (onBody : Code β → Code β) :
    List (Suspended α β) → Code α → Code β → Code β
  | stack, leaf a rest, built => walkFrom onLeaf onBody stack rest (leaf (onLeaf a) built)
  | stack, loop body rest, built => walkFrom onLeaf onBody (⟨rest, built⟩ :: stack) body nil
  | [], nil, built => onBody built.reverse
  | s :: stack, nil, built =>
    walkFrom onLeaf onBody stack s.rest (loop (onBody built.reverse) s.built)
termination_by stack c _ => c.unvisited + Suspended.unvisited stack
decreasing_by all_goals simp only [Code.unvisited, Suspended.unvisited]; omega

/-- Every body changed, from an explicit stack. -/
def walk (onLeaf : α → β) (onBody : Code β → Code β) (c : Code α) : Code β :=
  walkFrom onLeaf onBody [] c nil

/-! ### The walk computes the recursive definition -/

/-- What the suspended bodies make of the finished inner one. -/
def resume (onLeaf : α → β) (onBody : Code β → Code β) : List (Suspended α β) → Code β → Code β
  | [], inner => onBody inner
  | s :: stack, inner =>
    resume onLeaf onBody stack
      (s.built.reverse ++ loop (onBody inner) (s.rest.transformInside onLeaf onBody))

theorem walkFrom_eq (onLeaf : α → β) (onBody : Code β → Code β) (stack : List (Suspended α β))
    (c : Code α) (built : Code β) :
    walkFrom onLeaf onBody stack c built =
      resume onLeaf onBody stack (built.reverse ++ c.transformInside onLeaf onBody) := by
  fun_induction walkFrom onLeaf onBody stack c built with
  | case1 stack a rest built ih => simp [ih, transformInside, append_assoc]
  | case2 stack body rest built ih => simp [ih, transformInside, resume]
  | case3 built => simp [resume, transformInside]
  | case4 s stack built ih => simp [ih, resume, transformInside, append_assoc]

/-- **The walk changes every body, as the recursive definition does.** -/
theorem walk_eq_transform (onLeaf : α → β) (onBody : Code β → Code β) (c : Code α) :
    c.walk onLeaf onBody = c.transform onLeaf onBody := by
  simp [walk, walkFrom_eq, resume, transform]

end TapeLang.Code
