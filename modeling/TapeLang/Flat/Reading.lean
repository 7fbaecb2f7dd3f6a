import TapeLang.Flat.Lowering

/-! Reading flat code back into packed code.

A slot that is no jump stands for one operation. A jump that is taken if the cell is zero opens a
loop, and one that is taken if it is not closes the loop that was opened last. Where the jumps go is
not looked at. -/
namespace TapeLang.Flat

/-- The slots of flat code, if both columns are equally long and every code names an operation. -/
def slots? (f : Flat) : Option (List (Opcode × Int)) :=
  if f.args.size = f.ops.size then
    (f.ops.toList.zip f.args.toList).mapM fun (code, arg) =>
      (Opcode.ofCode? code).map (·, arg.toInt)
  else none

/-- What has been read of flat code: what stands in front of each open loop, the innermost loop
first, and what stands in the innermost one so far, both with the last element first. -/
structure Reader where
  around : List Packed := []
  built : Packed := .nil

namespace Reader

def push (op : Op) (r : Reader) : Reader := { r with built := .leaf op r.built }

def enter (r : Reader) : Reader := { around := r.built :: r.around }

/-- The innermost loop is closed, if any is open. -/
def leave? : Reader → Option Reader
  | { around := [], .. } => none
  | { around := before :: around, built } => some { around, built := .loop built.reverse before }

def accept? : Opcode × Int → Reader → Option Reader
  | (.add, amount), r => some (r.push (.add amount))
  | (.move, distance), r => some (r.push (.move distance))
  | (.clear, _), r => some (r.push .clear)
  | (.output, _), r => some (r.push (.plain .output))
  | (.input, _), r => some (r.push (.plain .input))
  | (.jumpIfZero, _), r => some r.enter
  | (.jumpIfNonzero, _), r => r.leave?

def acceptAll? : List (Opcode × Int) → Reader → Option Reader
  | [], r => some r
  | slot :: slots, r => (r.accept? slot).bind (acceptAll? slots)

/-- What has been read, if no loop is open. -/
def finish? : Reader → Option Packed
  | { around := [], built } => some built.reverse
  | { around := _ :: _, .. } => none

end Reader

/-- The packed code that flat code stands for. -/
def code? (f : Flat) : Option Packed :=
  f.slots?.bind fun slots => (Reader.acceptAll? slots {}).bind (·.finish?)

end TapeLang.Flat
