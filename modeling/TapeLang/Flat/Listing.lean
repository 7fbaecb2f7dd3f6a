import TapeLang.Flat
import TapeLang.Text.Lines
import TapeLang.Text.Numeral

/-! Flat code as a listing.

Each slot is a line: its number, the name of its operation, and the operand where it has a meaning,
a signed amount or the target of a jump. -/
namespace TapeLang.Flat

def listingLine (number : Nat) (op : Opcode) (arg : Int) : Text :=
  let front := Numeral.zeroFilled 5 number ++ "  "
  let name := Numeral.alignLeft 16 op.name
  match op with
  | .move | .add => front ++ name ++ " " ++ Numeral.signed arg
  | .jumpIfZero | .jumpIfNonzero => front ++ name ++ " -> " ++ Numeral.zeroFilled 5 arg
  | _ => front ++ op.name

/-- The lines of the slots from a number on, or the first code that names no operation. -/
def listingLines : Nat → List (Int64 × Int64) → Except Int64 (List Text)
  | _, [] => .ok []
  | number, (code, arg) :: slots =>
    match Opcode.ofCode? code with
    | none => .error code
    | some op =>
      match listingLines (number + 1) slots with
      | .ok lines => .ok (listingLine number op arg.toInt :: lines)
      | .error code => .error code

/-- The listing of flat code, or the first code that names no operation. It stops where one of the
columns ends. -/
def listing (f : Flat) : Except Int64 Text :=
  match listingLines 0 (f.ops.toList.zip f.args.toList) with
  | .ok lines => .ok (Lines.join lines ++ "\n")
  | .error code => .error code

end TapeLang.Flat
