import TapeLang.Code.Walk
import TapeLang.Machine

/-! Packed code: the same loops over operations that can each stand for several commands.

An operation adds any amount, moves by any distance, or clears a cell in one go; a command may also
stand as it is, as output and input always do, and so may a whole loop of a program. A program is
turned into packed code command by command, and packing happens afterwards, in passes. -/
namespace TapeLang

inductive Op where
  /-- A number is added to the cell at the cursor. -/
  | add (amount : Int)
  /-- The cursor moves. -/
  | move (distance : Int)
  /-- The cell at the cursor is set to zero. -/
  | clear
  /-- A command as it is. -/
  | plain (c : Command)
  /-- A loop of a program as it is. -/
  | plainLoop (body : Program)
  deriving DecidableEq, Inhabited

abbrev Packed := Code Op

/-- The operation that stands for one command. -/
def Op.ofCommand : Command → Op
  | .advance => move 1
  | .retreat => move (-1)
  | .increment => add 1
  | .decrement => add (-1)
  | .output => plain .output
  | .input => plain .input

/-- What an operation does to the machine. A loop that is left as it is does nothing: flat code has
no slot for it, and no script is written of code that holds one. -/
def Op.exec (policy : EndOfInput) : Op → Machine → Outcome
  | add amount, m => .ended (m.adjust amount)
  | move distance, m => .ended (m.move distance)
  | clear, m => .ended (m.write 0)
  | plain c, m => c.exec policy m
  | plainLoop _, m => .ended m

/-- A program as packed code, one operation for each command. -/
def Packed.ofProgram (p : Program) : Packed := p.walk Op.ofCommand id

end TapeLang
