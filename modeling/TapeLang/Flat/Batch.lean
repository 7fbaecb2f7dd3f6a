import TapeLang.Flat
import TapeLang.Tape

/-! Running flat code in batches.

A batch runs on the stored window alone. It stops at the end of the code, at output and input, where
a cell outside the window is wanted, and when it has taken as many steps as it may; then it can be
resumed at the same position. Addresses are words of sixty-four bits and wrap around. -/
namespace TapeLang

/-- Why a batch stops. -/
inductive Stop where
  /-- The position is past the code. -/
  | ended
  /-- The byte at the cursor is to be written out. -/
  | output
  /-- A byte is to be read into the cell at the cursor. -/
  | input
  /-- The cell at the cursor is not stored. -/
  | grow
  /-- No further step may be taken. -/
  | budget
  /-- The position is not in the code. -/
  | astray
  deriving DecidableEq

def Stop.code : Stop → Nat
  | ended => 0
  | output => 1
  | input => 2
  | grow => 3
  | budget => 4
  | astray => 5

/-- A batch under way. -/
structure Batch where
  tape : Tape
  position : Int
  /-- The steps taken in this batch. -/
  steps : Nat := 0
  deriving DecidableEq

/-- What a step comes to. -/
inductive Batch.Next where
  | running (b : Batch)
  | stopped (reason : Stop) (b : Batch)

namespace Batch

/-- A number as a word of sixty-four bits that wraps around. -/
def wrap (n : Int) : Int := (Int64.ofInt n).toInt

/-- The first of the numbers a batch starts with that does not fit into a word. -/
def misfit? (budget : Int) (b : Batch) : Option Int :=
  [b.tape.originOffset, b.tape.cursor, b.position, budget].find? (!fitsWord ·)

/-- The index of the cell at the cursor. -/
def index (t : Tape) : Int := wrap (t.cursor + t.originOffset)

/-- The next position in order. -/
def forward : Batch → Batch
  | ⟨tape, position, steps⟩ => ⟨tape, position + 1, steps + 1⟩

def jump (target : Int64) : Batch → Batch
  | ⟨tape, _, steps⟩ => ⟨tape, target.toInt, steps + 1⟩

/-- The batch with the byte at an index replaced. -/
def store (slot : Nat) (value : UInt8) : Batch → Batch
  | ⟨⟨cells, originOffset, cursor⟩, position, steps⟩ =>
    ⟨⟨cells.setIfInBounds slot value, originOffset, cursor⟩, position, steps⟩

/-- What comes of the operand at the position. It is looked up only where it has a meaning, so a
slot without an operand does no harm before that. -/
@[inline] def withArg (f : Flat) (b : Batch) (next : Int64 → Next) : Next :=
  match f.arg? b.position with
  | some arg => next arg
  | none => .stopped .astray b

/-- An operation at a stored cell. -/
def act (f : Flat) (op : Option Opcode) (slot : Nat) (value : UInt8) (b : Batch) : Next :=
  match op with
  | some .add =>
    b.withArg f fun arg => .running (b.store slot (value + .ofInt arg.toInt)).forward
  | some .clear => .running (b.store slot 0).forward
  | some .output => .stopped .output b
  | some .input => .stopped .input b
  | some .jumpIfZero =>
    if value = 0 then b.withArg f fun arg => .running (b.jump arg) else .running b.forward
  | some .jumpIfNonzero =>
    if value = 0 then .running b.forward else b.withArg f fun arg => .running (b.jump arg)
  | _ => .running b.forward

/-- One step inside the code. -/
def step (f : Flat) (b : Batch) : Next :=
  match f.op? b.position with
  | none => .stopped .astray b
  | some code =>
    match Opcode.ofCode? code with
    | some .move =>
      b.withArg f fun arg =>
        match b with
        | ⟨⟨cells, originOffset, cursor⟩, position, steps⟩ =>
          .running ⟨⟨cells, originOffset, wrap (cursor + arg.toInt)⟩, position + 1, steps + 1⟩
    | op =>
      let slot := index b.tape
      if 0 ≤ slot ∧ slot < b.tape.size then
        act f op slot.toNat (b.tape.cells.getD slot.toNat 0) b
      else .stopped .grow b

/-- A batch with a number of steps that it may still take. -/
def run (f : Flat) : Nat → Batch → Stop × Batch
  | budget, b =>
    if f.size ≤ b.position then (.ended, b)
    else
      match budget with
      | 0 => (.budget, b)
      | budget + 1 =>
        match b.step f with
        | .running b => run f budget b
        | .stopped reason b => (reason, b)

end Batch

end TapeLang
