import TapeLang.EndOfInput
import TapeLang.Program
import TapeLang.Tape

/-! The machine that programs run on: a tape between an input and an output.

Every access to a cell happens at the cursor and first makes the cell stored. The machine keeps
the growths of its tape in the order in which they happened, so that two ways of running a program
can be compared in what they touch and when. -/
namespace TapeLang

/-- The state of the machine. -/
structure Machine where
  tape : Tape := .empty
  /-- The bytes that have not been read yet. -/
  unread : List UInt8 := []
  /-- The bytes that have been written. -/
  written : Array UInt8 := #[]
  /-- The growths of the tape so far. -/
  growths : Array Growth := #[]
  deriving DecidableEq

/-- How an action of the machine ends: the next action can follow, or a byte was wanted when none
was left. -/
inductive Outcome where
  | ended (m : Machine)
  | exhausted (m : Machine)
  deriving DecidableEq

def Outcome.machine : Outcome → Machine
  | ended m => m
  | exhausted m => m

namespace Machine

def current (m : Machine) : UInt8 := m.tape.current

/-- The machine after the cell at an address was accessed. -/
def reach (m : Machine) (address : Int) : Machine :=
  match m.tape.growth? address with
  | none => m
  | some g => { m with tape := m.tape.grow g.side g.amount, growths := m.growths.push g }

/-- The machine after the cell at the cursor was accessed. -/
def touch (m : Machine) : Machine := m.reach m.tape.cursor

/-- The cursor moves; no cell is accessed. -/
def move (m : Machine) (distance : Int) : Machine := { m with tape := m.tape.move distance }

/-- A number is stored at the cursor, modulo 256. -/
def write (m : Machine) (value : Int) : Machine :=
  let m := m.touch
  { m with tape := m.tape.put m.tape.cursor (.ofInt value) }

/-- A number is added to the cell at the cursor, modulo 256. -/
def adjust (m : Machine) (amount : Int) : Machine :=
  let m := m.touch
  { m with tape := m.tape.put m.tape.cursor (m.current + .ofInt amount) }

def emit (m : Machine) (byte : UInt8) : Machine := { m with written := m.written.push byte }

/-- A number is written out, if it is a byte. -/
def emit? (m : Machine) (value : Int) : Option Machine :=
  if 0 ≤ value ∧ value < 256 then some (m.emit (.ofInt value)) else none

/-- The byte at the cursor is written out. -/
def output (m : Machine) : Machine :=
  let m := m.touch
  m.emit m.current

/-- The next byte of the input is stored at the cursor. Where none is left, the policy decides;
reading that fails leaves the tape as it is. -/
def input (policy : EndOfInput) (m : Machine) : Outcome :=
  match m.unread with
  | byte :: unread => .ended ({ m with unread }.write byte.toNat)
  | [] =>
    match policy with
    | .error => .exhausted m
    | .zero => .ended (m.write 0)
    | .unchanged => .ended m.touch

end Machine

def Command.exec (policy : EndOfInput) : Command → Machine → Outcome
  | advance, m => .ended (m.move 1)
  | retreat, m => .ended (m.move (-1))
  | increment, m => .ended (m.adjust 1)
  | decrement, m => .ended (m.adjust (-1))
  | output, m => .ended m.output
  | input, m => m.input policy

end TapeLang
