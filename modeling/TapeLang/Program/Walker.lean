import TapeLang.Machine
import TapeLang.RunFault

/-! Running a program one step at a time.

A walker keeps a stack of bodies, innermost first, each as what is left of it. Where the innermost
one starts with a loop, the loop is looked at: its body is put on the stack while the cell at the
cursor is not zero, and the loop stays where it is, so that it is looked at again when the body is
done. Every command executed and every look at a loop is a step. A step is counted before it is
taken, and one that would exceed the limit is not taken. -/
namespace TapeLang

/-- A program in the middle of its run. -/
structure Walker where
  /-- What is left of the bodies that are being run, innermost first. -/
  frames : List Program
  machine : Machine
  /-- How many steps have been counted. -/
  steps : Nat

/-- What a step comes to. -/
inductive Walker.Next where
  | running (w : Walker)
  /-- The run is over, by a fault or without one. -/
  | stopped (fault : Option RunFault) (w : Walker)

namespace Walker

def start (p : Program) (m : Machine) (steps : Nat) : Walker := ⟨[p], m, steps⟩

/-- One step; leaving a body that is done costs none. -/
def step (policy : EndOfInput) (limit : Option Int) : Walker → Next
  | ⟨[], m, steps⟩ => .stopped none ⟨[], m, steps⟩
  | ⟨.nil :: frames, m, steps⟩ => .running ⟨frames, m, steps⟩
  | ⟨.leaf c rest :: frames, m, steps⟩ =>
    match exceeded? limit (steps + 1) with
    | some limit => .stopped (some (.stepLimit limit)) ⟨.leaf c rest :: frames, m, steps + 1⟩
    | none =>
      match c.exec policy m with
      | .ended m => .running ⟨rest :: frames, m, steps + 1⟩
      | .exhausted m =>
        .stopped (some (.inputExhausted m.tape.cursor)) ⟨.leaf c rest :: frames, m, steps + 1⟩
  | ⟨.loop body rest :: frames, m, steps⟩ =>
    match exceeded? limit (steps + 1) with
    | some limit => .stopped (some (.stepLimit limit)) ⟨.loop body rest :: frames, m, steps + 1⟩
    | none =>
      let m := m.touch
      if m.current = 0 then .running ⟨rest :: frames, m, steps + 1⟩
      else .running ⟨body :: .loop body rest :: frames, m, steps + 1⟩

/-- A run of at most `fuel` transitions: how it ends, if it does. -/
def run (policy : EndOfInput) (limit : Option Int) :
    Nat → Walker → Option (Option RunFault × Walker)
  | 0, _ => none
  | fuel + 1, w =>
    match w.step policy limit with
    | .running w => run policy limit fuel w
    | .stopped fault w => some (fault, w)

end Walker

end TapeLang
