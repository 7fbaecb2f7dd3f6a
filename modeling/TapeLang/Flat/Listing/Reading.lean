import TapeLang.Flat.Listing
import TapeLang.Text.Numeral.Reading
import TapeLang.Text.Words

/-! Reading a listing back into flat code.

A line is read by its words and not by its columns, so numbers may be of any width: after the number
of the slot the name of the operation, and as the last word the operand. An operand that is not
shown is zero. -/
namespace TapeLang

def Opcode.ofName? (name : Text) : Option Opcode :=
  [move, add, clear, output, input, jumpIfZero, jumpIfNonzero].find? (·.name = name)

theorem Opcode.ofName?_name (op : Opcode) : ofName? op.name = some op := by
  cases op <;> decide

namespace Flat

/-- The slot that the words of a line describe. -/
def slotOfWords? : List Text → Option (Opcode × Int)
  | _ :: name :: operand => do
    let op ← Opcode.ofName? name
    let arg ← match operand.getLast? with
      | none => some 0
      | some word => Numeral.signed? word
    return (op, arg)
  | _ => none

def ofListing? (text : Text) : Option Flat := do
  let lines := (Lines.split text).filter fun line => !line.isEmpty
  let slots ← lines.mapM fun line => slotOfWords? (Words.split line)
  ofColumns? (slots.map (·.1.code.toInt)) (slots.map (·.2))

end Flat

end TapeLang
