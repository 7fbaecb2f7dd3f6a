import TapeLang.Text

/-! Flat code: operations in a row, with jumps in place of loops.

Flat code is two columns of words of sixty-four bits, the operation codes and their operands. The
operand of a jump is the place it goes to. A code that names no operation is allowed; such a slot
looks at its cell and does nothing. -/
namespace TapeLang

/-- Whether a number fits into a word of sixty-four bits. -/
def fitsWord (n : Int) : Bool := -9223372036854775808 ≤ n && n ≤ 9223372036854775807

inductive Opcode where
  | move
  | add
  | clear
  | output
  | input
  | jumpIfZero
  | jumpIfNonzero
  deriving DecidableEq

namespace Opcode

def code : Opcode → Int64
  | move => 0
  | add => 1
  | clear => 2
  | output => 3
  | input => 4
  | jumpIfZero => 5
  | jumpIfNonzero => 6

/-- The operation a number stands for. -/
def ofCode? (n : Int64) : Option Opcode :=
  [move, add, clear, output, input, jumpIfZero, jumpIfNonzero].find? (·.code = n)

def name : Opcode → Text
  | move => "MOVE"
  | add => "ADD"
  | clear => "CLEAR"
  | output => "OUTPUT"
  | input => "INPUT"
  | jumpIfZero => "JUMP_IF_ZERO"
  | jumpIfNonzero => "JUMP_IF_NONZERO"

theorem ofCode?_code (op : Opcode) : ofCode? op.code = some op := by
  cases op <;> decide

end Opcode

structure Flat where
  ops : Array Int64 := #[]
  args : Array Int64 := #[]
  deriving DecidableEq

namespace Flat

def size (f : Flat) : Nat := f.ops.size

/-- Flat code of two given columns, if their numbers fit into words. -/
def ofColumns? (ops args : List Int) : Option Flat :=
  if ops.all fitsWord && args.all fitsWord then
    some ⟨(ops.map Int64.ofInt).toArray, (args.map Int64.ofInt).toArray⟩
  else none

/-- A further slot at the end. -/
def push (f : Flat) (op : Opcode) (arg : Int64) : Flat :=
  ⟨f.ops.push op.code, f.args.push arg⟩

/-- The operand of a slot replaced. -/
def patch (f : Flat) (slot : Nat) (arg : Int64) : Flat :=
  { f with args := f.args.setIfInBounds slot arg }

/-- The slot that a position means in a column of the given length. A negative position counts from
the end. -/
def slotIn? (length : Nat) (position : Int) : Option Nat :=
  let slot := if position < 0 then position + length else position
  if 0 ≤ slot ∧ slot < length then some slot.toNat else none

/-- The word at a position of a column. -/
def wordAt? (column : Array Int64) (position : Int) : Option Int64 := do
  let slot ← slotIn? column.size position
  column[slot]?

/-- The operation code at a position. -/
def op? (f : Flat) (position : Int) : Option Int64 := wordAt? f.ops position

/-- The operand at a position. The two columns may differ in length, and each is counted from its
own end. -/
def arg? (f : Flat) (position : Int) : Option Int64 := wordAt? f.args position

end Flat

end TapeLang
