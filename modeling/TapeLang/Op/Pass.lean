import TapeLang.Op

/-! Passes over packed code.

Each pass works on one body at a time, innermost first. An operation that touches a cell is only
replaced by one that touches the same cell at the same point, so a pass changes no access to the
tape that a growth could depend on: a run of additions stays as one addition even if its sum is
zero, while a run of moves that cancel out is dropped. -/
namespace TapeLang

namespace Packed

/-! ### Packing runs -/

/-- A run of equal operations that may go on. -/
inductive Run where
  | none
  /-- Additions so far, with their sum. -/
  | adding (sum : Int)
  /-- Moves so far, with their sum. -/
  | moving (sum : Int)

/-- A run that is over, in front of what follows it. -/
def Run.closeOnto : Run → Packed → Packed
  | none, rest => rest
  | adding sum, rest => .leaf (.add sum) rest
  | moving sum, rest => if sum = 0 then rest else .leaf (.move sum) rest

/-- A body, with the run in front of it packed. -/
def packFrom : Run → Packed → Packed
  | run, .nil => run.closeOnto .nil
  | run, .loop body rest => run.closeOnto (.loop body (packFrom .none rest))
  | .adding sum, .leaf (.add amount) rest => packFrom (.adding (sum + amount)) rest
  | .moving sum, .leaf (.move distance) rest => packFrom (.moving (sum + distance)) rest
  | run, .leaf (.add amount) rest => run.closeOnto (packFrom (.adding amount) rest)
  | run, .leaf (.move distance) rest => run.closeOnto (packFrom (.moving distance) rest)
  | run, .leaf op rest => run.closeOnto (.leaf op (packFrom .none rest))

/-- One operation for each run of additions and each run of moves; a run of moves that cancel out
is dropped. -/
def packBody (body : Packed) : Packed := packFrom .none body

/-! ### Small amounts -/

/-- The amount nearest to zero that adds the same modulo 256, the positive one of two. -/
def reduceAmount (amount : Int) : Int :=
  let rest := amount % 256
  if rest ≤ 256 - rest then rest else -(256 - rest)

/-- Every addition by the least amount. -/
def reduceBody : Packed → Packed
  | .nil => .nil
  | .loop body rest => .loop body (reduceBody rest)
  | .leaf (.add amount) rest => .leaf (.add (reduceAmount amount)) (reduceBody rest)
  | .leaf op rest => .leaf op (reduceBody rest)

/-! ### Clearing -/

/-- Whether a body does nothing but count the current cell up or down by one. -/
def counts : Packed → Bool
  | .leaf (.add amount) .nil => amount == 1 || amount == -1
  | _ => false

/-- A loop that counts the cell until it is zero is one operation. -/
def clearBody : Packed → Packed
  | .nil => .nil
  | .loop body rest =>
    if counts body then .leaf .clear (clearBody rest) else .loop body (clearBody rest)
  | .leaf op rest => .leaf op (clearBody rest)

/-- Whether an operation stores into the current cell and does nothing else. -/
def stores : Op → Bool
  | .add _ => true
  | .clear => true
  | _ => false

/-- Whether a body starts by clearing the cell. -/
def clearsFirst : Packed → Bool
  | .leaf .clear _ => true
  | _ => false

/-- What is stored right before the cell is cleared is dropped. -/
def peepholeBody : Packed → Packed
  | .nil => .nil
  | .loop body rest => .loop body (peepholeBody rest)
  | .leaf op rest =>
    if stores op && clearsFirst rest then peepholeBody rest else .leaf op (peepholeBody rest)

end Packed

/-- The passes. -/
inductive Pass where
  /-- Runs of additions and of moves become one operation each. -/
  | pack
  /-- Amounts are reduced modulo 256. -/
  | reduce
  /-- Loops that count a cell down or up to zero clear it. -/
  | clear
  /-- A store right before a clearing is dropped. -/
  | peephole
  deriving DecidableEq

def Pass.onBody : Pass → Packed → Packed
  | pack => Packed.packBody
  | reduce => Packed.reduceBody
  | clear => Packed.clearBody
  | peephole => Packed.peepholeBody

/-- Packed code after a pass over all its bodies. -/
def Pass.apply (pass : Pass) (c : Packed) : Packed := c.walk id pass.onBody

namespace Packed

/-- The passes of a level: none at zero or below, packing at one, clearing too at two or above. -/
def passesAt (level : Int) : List Pass :=
  if level ≤ 0 then []
  else if level = 1 then [.pack, .reduce]
  else [.pack, .reduce, .clear, .peephole]

/-- Packed code after some passes, the first one first. -/
def applyAll (passes : List Pass) (c : Packed) : Packed :=
  passes.foldl (fun c pass => pass.apply c) c

/-- A program as packed code of a level. -/
def optimize (level : Int) (p : Program) : Packed := applyAll (passesAt level) (ofProgram p)

end Packed

end TapeLang
