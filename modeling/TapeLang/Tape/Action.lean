import TapeLang.Tape.Dump

/-! What can be done to a tape.

The cursor can be moved and set, the cell at the cursor read, written and counted up or down, a cell
made stored, and the tape looked at. Reading and writing find their cell by its index. Where cells
are added on the left, the cell that is wanted becomes the first one; elsewhere its index is known
before the tape grows. -/
namespace TapeLang.Tape

/-- The index of the cell at an address, and the tape on which the cell is stored. -/
def locate (t : Tape) (address : Int) : Int × Tape :=
  match t.growth? address with
  | none => (t.index address, t)
  | some ⟨.left, amount, _, _⟩ => (0, t.grow .left amount)
  | some ⟨.right, amount, _, _⟩ => (t.index address, t.grow .right amount)

/-- The byte at the cursor, and the tape after it was read. -/
def fetch (t : Tape) : UInt8 × Tape :=
  match t.locate t.cursor with
  | (index, t) => (t.cells.getD index.toNat 0, t)

/-- The tape after a number was stored at the cursor, modulo 256. -/
def store (t : Tape) (value : Int) : Tape :=
  match t.locate t.cursor with
  | (index, t) => { t with cells := t.cells.setIfInBounds index.toNat (.ofInt value) }

/-- The tape after a number was added to the cell at the cursor: the byte is read, and the sum
modulo 256 is stored. -/
def count (t : Tape) (amount : Int) : Tape :=
  match t.fetch with
  | (byte, t) => t.store ((byte.toNat + amount) % 256)

/-- Something that can be done to a tape. -/
inductive Action where
  | advance (distance : Int)
  | retreat (distance : Int)
  /-- The cursor is set to an address. -/
  | place (address : Int)
  | read
  | write (value : Int)
  | increment
  | decrement
  /-- The cell at an address is made stored. -/
  | reach (address : Int)
  /-- The byte at an address is looked at. -/
  | peek (address : Int)
  | span
  | cells
  | dump (width : Int)
  deriving DecidableEq

/-- What an action answers. -/
inductive Answer where
  | done
  | number (n : Int)
  /-- The ends of the window, unless it is empty. -/
  | span (ends : Option (Int × Int))
  /-- The cells of the window with their addresses. -/
  | cells (entries : List (Int × Int))
  /-- A dump, unless there is none of that width. -/
  | dump (shown : Option Text)
  deriving DecidableEq

/-- What an action answers, and the tape that it leaves. -/
def perform (t : Tape) : Action → Answer × Tape
  | .advance distance => (.done, t.move distance)
  | .retreat distance => (.done, t.move (-distance))
  | .place address => (.done, { t with cursor := address })
  | .read =>
    match t.fetch with
    | (byte, t) => (.number byte.toNat, t)
  | .write value => (.done, t.store value)
  | .increment => (.done, t.count 1)
  | .decrement => (.done, t.count (-1))
  | .reach address =>
    match t.locate address with
    | (index, t) => (.number index, t)
  | .peek address => (.number (t.peek address).toNat, t)
  | .span => (.span t.span?, t)
  | .cells => (.cells (t.entries.map fun (address, byte) => (address, byte.toNat)), t)
  | .dump width => (.dump (t.dump? width), t)

/-- The tape that some actions leave, one after the other. -/
def performAll (t : Tape) : List Action → Tape
  | [] => t
  | action :: actions => (t.perform action).2.performAll actions

end TapeLang.Tape
