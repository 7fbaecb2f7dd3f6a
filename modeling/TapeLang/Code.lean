/-! Loop code: sequences of leaves and loops, nested to any depth.

A program of the tape language and the packed form it is compiled to have the same shape and
differ only in their leaves, so one type serves both. A sequence is empty, or starts with a leaf,
or starts with a loop that holds a sequence of its own; recursion over a whole nested program is
then recursion over one type. -/
namespace TapeLang

/-- A sequence of leaves and loops; a loop holds a sequence of its own. -/
inductive Code (α : Type) where
  | nil
  | leaf (a : α) (rest : Code α)
  | loop (body rest : Code α)
  deriving DecidableEq, Inhabited

namespace Code
variable {α β : Type}

def append : Code α → Code α → Code α
  | nil, k => k
  | leaf a rest, k => leaf a (rest.append k)
  | loop body rest, k => loop body (rest.append k)

instance : Append (Code α) := ⟨append⟩

/-- The elements of the first sequence, last first, in front of the second. Loop bodies keep
their order. -/
def reverseOnto : Code α → Code α → Code α
  | nil, k => k
  | leaf a rest, k => rest.reverseOnto (leaf a k)
  | loop body rest, k => rest.reverseOnto (loop body k)

def reverse (c : Code α) : Code α := c.reverseOnto nil

/-- How many elements stand at the top level. -/
def width : Code α → Nat
  | nil => 0
  | leaf _ rest => rest.width + 1
  | loop _ rest => rest.width + 1

/-- How many leaves and loops there are at all depths. -/
def size : Code α → Nat
  | nil => 0
  | leaf _ rest => rest.size + 1
  | loop body rest => body.size + rest.size + 1

/-- How many loops stand around the deepest place. -/
def depth : Code α → Nat
  | nil => 0
  | leaf _ rest => rest.depth
  | loop body rest => max (body.depth + 1) rest.depth

/-- Whether all leaves at all depths pass a test. -/
def all (test : α → Bool) : Code α → Bool
  | nil => true
  | leaf a rest => test a && rest.all test
  | loop body rest => body.all test && rest.all test

/-! ### Joining and turning round -/

@[simp] theorem nil_append (k : Code α) : nil ++ k = k := rfl

@[simp] theorem leaf_append (a : α) (rest k : Code α) : leaf a rest ++ k = leaf a (rest ++ k) := rfl

@[simp] theorem loop_append (body rest k : Code α) :
    loop body rest ++ k = loop body (rest ++ k) := rfl

@[simp] theorem append_nil (c : Code α) : c ++ nil = c := by
  induction c with
  | nil => rfl
  | leaf a rest ih => rw [leaf_append, ih]
  | loop body rest _ ih => rw [loop_append, ih]

theorem append_assoc (a b c : Code α) : a ++ b ++ c = a ++ (b ++ c) := by
  induction a with
  | nil => rfl
  | leaf x rest ih => rw [leaf_append, leaf_append, leaf_append, ih]
  | loop body rest _ ih => rw [loop_append, loop_append, loop_append, ih]

theorem reverseOnto_eq (c k : Code α) : c.reverseOnto k = c.reverse ++ k := by
  suffices h : ∀ j, c.reverseOnto (j ++ k) = c.reverseOnto j ++ k by
    simpa [reverse] using h nil
  induction c with
  | nil => exact fun _ => rfl
  | leaf a rest ih => exact fun j => ih (leaf a j)
  | loop body rest _ ih => exact fun j => ih (loop body j)

@[simp] theorem reverse_nil : (nil : Code α).reverse = nil := rfl

@[simp] theorem reverse_leaf (a : α) (rest : Code α) :
    (leaf a rest).reverse = rest.reverse ++ leaf a nil :=
  reverseOnto_eq rest (leaf a nil)

@[simp] theorem reverse_loop (body rest : Code α) :
    (loop body rest).reverse = rest.reverse ++ loop body nil :=
  reverseOnto_eq rest (loop body nil)

theorem reverse_append (c k : Code α) : (c ++ k).reverse = k.reverse ++ c.reverse := by
  induction c with
  | nil => simp
  | leaf a rest ih => simp [ih, append_assoc]
  | loop body rest _ ih => simp [ih, append_assoc]

@[simp] theorem reverse_reverse (c : Code α) : c.reverse.reverse = c := by
  induction c with
  | nil => rfl
  | leaf a rest ih => simp [reverse_append, ih]
  | loop body rest _ ih => simp [reverse_append, ih]

end Code

end TapeLang
