/-! The tape: bytes at all integer addresses, of which a window is stored.

The window starts at the address `-originOffset`. The cursor may stand anywhere; cells outside the
window read as zero. The window grows only when a cell outside it is accessed: to the left by
exactly the missing cells, which move the stored bytes up and raise the origin offset by as much,
or to the right up to and including the accessed cell. It never shrinks. -/
namespace TapeLang

/-- The side on which a window grows. -/
inductive Side where
  | left
  | right
  deriving DecidableEq

/-- That a window grew, and what it is like afterwards. -/
structure Growth where
  side : Side
  /-- How many cells were added. -/
  amount : Nat
  originOffset : Int
  size : Nat
  deriving DecidableEq

structure Tape where
  /-- The stored bytes, in ascending order of their addresses. -/
  cells : Array UInt8 := #[]
  /-- The index of the cell at address zero. -/
  originOffset : Int := 0
  cursor : Int := 0
  deriving DecidableEq

namespace Tape

/-- A tape without a stored cell, the cursor at address zero. -/
def empty : Tape := {}

/-- How many cells are stored. -/
def size (t : Tape) : Nat := t.cells.size

/-- The index that the cell at an address has, if it is stored. -/
def index (t : Tape) (address : Int) : Int := address + t.originOffset

def stores (t : Tape) (address : Int) : Bool :=
  0 ≤ t.index address && t.index address < t.size

def peek (t : Tape) (address : Int) : UInt8 :=
  if t.index address < 0 then 0 else t.cells.getD (t.index address).toNat 0

def current (t : Tape) : UInt8 := t.peek t.cursor

/-! ### Growing -/

/-- The growth that makes the cell at an address stored, if it is not. -/
def growth? (t : Tape) (address : Int) : Option Growth :=
  let index := t.index address
  if index < 0 then
    let deficit := (-index).toNat
    some ⟨.left, deficit, t.originOffset + deficit, t.size + deficit⟩
  else if t.size ≤ index then
    let missing := (index + 1 - t.size).toNat
    some ⟨.right, missing, t.originOffset, t.size + missing⟩
  else none

/-- The tape with cells added to its window. -/
def grow (t : Tape) : Side → Nat → Tape
  | .left, amount =>
    { t with
      cells := Array.replicate amount 0 ++ t.cells
      originOffset := t.originOffset + amount }
  | .right, amount => { t with cells := t.cells ++ Array.replicate amount 0 }

/-- The tape with the cell at an address stored. -/
def reach (t : Tape) (address : Int) : Tape :=
  match t.growth? address with
  | none => t
  | some g => t.grow g.side g.amount

/-! ### Access at the cursor -/

def move (t : Tape) (distance : Int) : Tape := { t with cursor := t.cursor + distance }

/-- The tape with the byte of a stored cell replaced. -/
def put (t : Tape) (address : Int) (value : UInt8) : Tape :=
  { t with cells := t.cells.setIfInBounds (t.index address).toNat value }

/-- The tape after the cell at the cursor was accessed. -/
def touch (t : Tape) : Tape := t.reach t.cursor

/-- The tape with a number stored at the cursor, modulo 256. -/
def write (t : Tape) (value : Int) : Tape :=
  let t := t.touch
  t.put t.cursor (.ofInt value)

/-- The tape with a number added to the cell at the cursor, modulo 256. -/
def adjust (t : Tape) (amount : Int) : Tape :=
  let t := t.touch
  t.put t.cursor (t.current + .ofInt amount)

/-- The tape that writing numbers at some addresses, one after the other, makes of a tape. -/
def writeAll (t : Tape) : List (Int × Int) → Tape
  | [] => t
  | (address, value) :: writes => ({ t with cursor := address }.write value).writeAll writes

/-! ### Inspection -/

/-- The first and the last address of the window, unless it is empty. -/
def span? (t : Tape) : Option (Int × Int) :=
  if t.size = 0 then none else some (-t.originOffset, t.size - t.originOffset - 1)

/-- Numbered cells from an address on. -/
def numbered : Int → List UInt8 → List (Int × UInt8)
  | _, [] => []
  | address, value :: values => (address, value) :: numbered (address + 1) values

/-- The addresses of the window in ascending order, each with its byte. -/
def entries (t : Tape) : List (Int × UInt8) := numbered (-t.originOffset) t.cells.toList

end Tape

end TapeLang
