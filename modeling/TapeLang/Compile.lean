import TapeLang.Code.Count
import TapeLang.Run

/-! Compiling programs to scripts, and what a script does when it is called. -/
namespace TapeLang

structure Compiled where
  script : Script
  /-- How many commands and loops the program has. -/
  instructions : Nat
  /-- How many operations and loops are left of them. -/
  operations : Nat

def Script.notice (s : Script) : Notice := .scriptWritten (s.text.count (.char '\n')) s.sourceName

def compile (level policy : Scalar) (sourceName : Option Text) (source : Text) :
    Except Error Compiled := do
  let p ← Program.parse source
  let script ← scriptOf level policy sourceName p
  let c ← Packed.ofLevel level p
  return { script, instructions := p.count, operations := c.count }

/-- What a command leaves on its way out: an exit code and what it has written. -/
structure Exit where
  code : Nat
  output : Array UInt8
  errors : Text

/-- The exit of a run: a fault is a line of errors, and what was written before it stays. A fault of
which nothing is said is not taken care of. -/
def Exit.ofRun (fault? : Option RunFault) (m : Machine) : Except Error Exit :=
  match fault? with
  | none => .ok ⟨0, m.written, []⟩
  | some f =>
    match f.message? with
    | some message => .ok ⟨1, m.written, message ++ "\n"⟩
    | none => .error (.run f)

def Script.call (fuel : Nat) (s : Script) (input : List UInt8) : Option (Except Error Exit) :=
  (s.run fuel { unread := input }).map fun (fault?, m) => Exit.ofRun fault? m

def callSource (fuel : Nat) (level policy : Scalar) (source : Text) (input : List UInt8) :
    Option (Except Error Exit) :=
  match Program.parse source >>= scriptOf level policy none >>= Script.load with
  | .error e => some (.error e)
  | .ok s => s.call fuel input

end TapeLang
