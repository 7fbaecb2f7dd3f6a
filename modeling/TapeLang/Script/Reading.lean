import TapeLang.Op
import TapeLang.Script
import TapeLang.Text.Numeral.Reading
import Mathlib.Data.List.Basic

/-! Reading scripts back into packed code.

A reader is given the text of a script and nothing else. The level is shown in a comment as it was
asked for, so anything may stand there, lines that look like part of a script included; but nothing
that looks like the line of the policy comes after that line. So reading starts behind the last such
line. From there on the script is cut into its functions, and each line of a function is one
statement. A call stands for a loop whose body is the function of that number. It may only call a
function that comes later, so that no function contains itself. -/
namespace TapeLang

/-- What stands between a beginning and an end. -/
def between? {α : Type} [BEq α] (front back list : List α) : Option (List α) :=
  (list.dropPrefix? front).bind (·.dropSuffix? back)

/-! ### Statements -/

/-- What is read from the text between a beginning and an end. -/
def operand? {α : Type} (front : Text) (read : Text → Option α) (back text : Text) : Option α :=
  (between? front back text).bind read

namespace Statement

def added? : Text → Option Int :=
  operand? "tape.write((tape.read() + " Numeral.integer? ") & 0xFF)"

def advanced? : Text → Option Int := operand? "tape.advance(" Numeral.integer? ")"

def retreated? : Text → Option Int := operand? "tape.retreat(" Numeral.integer? ")"

def called? : Text → Option Nat := operand? "_loop_" Numeral.natural? "(tape, source, sink)"

def ofText? (text : Text) : Option Statement :=
  (added? text).map add <|> (advanced? text).map move <|> (retreated? text).map (move <| - ·) <|>
  (called? text).map call <|>
  if text = "tape.write(0)" then some clear
  else if text = "put_byte(sink, tape.read())" then some output
  else if text = "get_byte(tape, source, EOF_POLICY, sink)" then some input
  else none

/-- The statement on a line inside the given number of blocks. -/
def ofLine? (level : Nat) (line : Text) : Option Statement :=
  (line.dropPrefix? (.replicate (4 * level) ' ')).bind ofText?

end Statement

/-! ### Functions -/

namespace Script

/-- What a script says. -/
structure Contents where
  policy : EndOfInput
  depth : Nat
  /-- The functions of the loops with their numbers. -/
  functions : List (Nat × List Statement)
  main : List Statement
  deriving DecidableEq

/-- The policy that a line sets. -/
def policyOf? (line : Text) : Option EndOfInput :=
  EndOfInput.all.find? fun p => line = "EOF_POLICY = EofPolicy." ++ p.constant

/-- The policy that is set last, and the lines behind it. -/
def lastPolicy? : List Text → Option (EndOfInput × List Text)
  | [] => none
  | line :: lines => (lastPolicy? lines).or ((policyOf? line).map (·, lines))

/-- Whether a line begins a function. -/
def isOpening (line : Text) : Bool := (Text.ofString "def ").isPrefixOf line

/-- The lines in front of all functions, and the functions, each by its first line and the lines
under it. -/
def sections : List Text → List Text × List (Text × List Text)
  | [] => ([], [])
  | line :: lines =>
    let (top, functions) := sections lines
    if isOpening line then ([], (line, top) :: functions) else (line :: top, functions)

/-- The lines between two functions. -/
def gap : List Text := ["", ""]

/-- The depth that is stated in front of the functions. -/
def depthOf? (top : List Text) : Option Nat :=
  match between? [] gap top with
  | some [line] => operand? "LOOP_DEPTH = " Numeral.natural? [] line
  | _ => none

/-- The line above the statements of the function of a loop. -/
def loopHead : List Text := ["    while tape.read() != 0:"]

/-- The only line in the function of a loop that has no statements. -/
def noStatements : List Text := ["        pass"]

/-- The statements of the function of a loop. -/
def loopStatements? (lines : List Text) : Option (List Statement) :=
  if lines = noStatements then some [] else lines.mapM (Statement.ofLine? 2)

def loopOf? : Text × List Text → Option (Nat × List Statement)
  | (opening, lines) => do
    let number ← operand? "def _loop_" Numeral.natural? "(tape, source, sink):" opening
    let body ← between? loopHead gap lines
    let statements ← loopStatements? body
    return (number, statements)

/-- The first line of the function of the top level. -/
def mainOpening : Text := "def run(source, sink):"

/-- The lines above the statements of the top level. -/
def mainHead : List Text :=
  ["    if LOOP_DEPTH + 200 > sys.getrecursionlimit():",
   "        sys.setrecursionlimit(LOOP_DEPTH + 200)",
   "    tape = Tape()"]

/-- The line below the statements of the top level. -/
def mainEnd : Text := "    return tape"

/-- The statements of the function of the top level. -/
def mainOf? (lines : List Text) : Option (List Statement) :=
  (between? mainHead (mainEnd :: gap) lines).bind (·.mapM (Statement.ofLine? 1))

/-- What a text says as a script. -/
def contents? (text : Text) : Option Contents := do
  let (policy, lines) ← lastPolicy? (Lines.split text)
  let (top, functions) := sections lines
  let depth ← depthOf? top
  let loops ← (functions.takeWhile (·.1 ≠ mainOpening)).mapM loopOf?
  let main ← (functions.lookup mainOpening).bind mainOf?
  return { policy, depth, functions := loops, main }

end Script

/-! ### Code -/

/-- A statement in front of code, given the bodies of the loops that it may call. -/
def Statement.onto? (bodies : List (Nat × Packed)) : Statement → Packed → Option Packed
  | add amount, rest => some (.leaf (.add amount) rest)
  | move distance, rest => some (.leaf (.move distance) rest)
  | clear, rest => some (.leaf .clear rest)
  | output, rest => some (.leaf (.plain .output) rest)
  | input, rest => some (.leaf (.plain .input) rest)
  | call loop, rest => (bodies.lookup loop).map (.loop · rest)

/-- The code that statements stand for. -/
def Statement.code? (bodies : List (Nat × Packed)) : List Statement → Option Packed
  | [] => some .nil
  | s :: statements => (code? bodies statements).bind (s.onto? bodies)

namespace Script

/-- The bodies of loops, from their functions. -/
def bodies? : List (Nat × List Statement) → Option (List (Nat × Packed))
  | [] => some []
  | (number, statements) :: functions => do
    let later ← bodies? functions
    let body ← Statement.code? later statements
    return (number, body) :: later

def Contents.code? (s : Contents) : Option Packed :=
  (bodies? s.functions).bind (Statement.code? · s.main)

/-- The code and the policy of the script that a text is. -/
def read? (text : Text) : Option (Packed × EndOfInput) := do
  let s ← contents? text
  let code ← s.code?
  return (code, s.policy)

end Script

end TapeLang
