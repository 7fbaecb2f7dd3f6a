import TapeLang.Meaning
import TapeLang.Script

/-! Running scripts.

The statements of a function run in order. A call runs the function of a loop: its statements, as
long as the cell at the cursor is not zero when it is looked at. Calls may nest as deep as the
script says that its loops do, and each call may take a bounded number of rounds; a script that
needs more has no outcome under that bound. -/
namespace TapeLang

def Statement.exec (policy : EndOfInput) (onCall : Nat → Machine → Option Outcome) :
    Statement → Machine → Option Outcome
  | add amount, m => some (.ended (m.adjust amount))
  | move distance, m => some (.ended (m.move distance))
  | clear, m => some (.ended (m.write 0))
  | output, m => some (.ended m.output)
  | input, m => some (m.input policy)
  | call loop, m => onCall loop m

/-- Statements one after the other, given what a call does. -/
def Statement.execAll (policy : EndOfInput) (onCall : Nat → Machine → Option Outcome) :
    List Statement → Machine → Option Outcome
  | [], m => some (.ended m)
  | s :: statements, m =>
    match s.exec policy onCall m with
    | some (.ended m) => execAll policy onCall statements m
    | stopped => stopped

namespace Script

/-- A call of the function of a loop where calls may nest to a given depth. -/
def callLoop (s : Script) (rounds : Nat) : Nat → Nat → Machine → Option Outcome
  | 0, _, _ => none
  | depth + 1, loop, m =>
    repeatWhile (Statement.execAll s.policy (s.callLoop rounds depth) (s.functions.getD loop []))
      rounds m

/-- The outcome of a script, if no call takes more than the given number of rounds. -/
def eval (s : Script) (rounds : Nat) (m : Machine) : Option Outcome :=
  Statement.execAll s.policy (s.callLoop rounds s.depth) s.main m

end Script

end TapeLang
