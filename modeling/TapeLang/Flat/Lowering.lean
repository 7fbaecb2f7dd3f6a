import TapeLang.Flat
import TapeLang.Op

/-! Flat code from packed code.

A loop becomes a jump past its end, taken if the cell is zero, its body, and a jump back to the
start of its body, taken if the cell is not zero. The first jump is written before its target is
known and gets it when the loop is closed. Plain commands other than output and input have no
place in flat code and are left out. An operand that does not fit into sixty-four bits is
refused, and so is code with more slots than jumps can go to. -/
namespace TapeLang

namespace Flat

/-- The operand of a jump whose target is not known yet. -/
def openTarget : Int64 := -1

def slotOf : Op → Option (Opcode × Int)
  | .add amount => some (.add, amount)
  | .move distance => some (.move, distance)
  | .clear => some (.clear, 0)
  | .plain .output => some (.output, 0)
  | .plain .input => some (.input, 0)
  | .plain _ | .plainLoop _ => none

/-- Packed code after flat code, with the loops closed. -/
def flattenOnto : Packed → Flat → Flat
  | .nil, f => f
  | .leaf op rest, f =>
    match slotOf op with
    | some (opcode, arg) => flattenOnto rest (f.push opcode (.ofInt arg))
    | none => flattenOnto rest f
  | .loop body rest, f =>
    let start := f.size
    let f := flattenOnto body (f.push .jumpIfZero openTarget)
    let stop := f.size
    let f := f.push .jumpIfNonzero (.ofInt (start + 1))
    flattenOnto rest (f.patch start (.ofInt (stop + 1)))

/-- Whether the operands of the operations fit into sixty-four bits. -/
def operandsFit (c : Packed) : Bool :=
  c.all fun op => match slotOf op with
    | some (_, arg) => fitsWord arg
    | none => true

end Flat

/-- Packed code as flat code, if its operands and its jumps fit. -/
def Packed.lower? (c : Packed) : Option Flat :=
  if Flat.operandsFit c then
    let f := Flat.flattenOnto c {}
    if fitsWord f.size then some f else none
  else none

end TapeLang
