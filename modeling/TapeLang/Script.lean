import TapeLang.EndOfInput
import TapeLang.Text.Lines

/-! Scripts: programs as a module of one function for each loop.

A function is a list of statements, one on each line. The function of a loop runs its statements
while the current cell is not zero and is called where the loop stands; the function `run` holds the
top level. Loops inside loops are calls, so no function is indented deeper than any other, however
deep the program is nested. -/
namespace TapeLang

/-- One line of a function. -/
inductive Statement where
  | add (amount : Int)
  | move (distance : Int)
  | clear
  | output
  | input
  /-- The function of a loop is called. -/
  | call (loop : Nat)
  deriving DecidableEq

structure Script where
  /-- What the script was made from. -/
  sourceName : Text
  /-- The optimization level as it was asked for. -/
  level : Text
  policy : EndOfInput
  /-- How deep the loops are nested. -/
  depth : Nat
  /-- The functions of the loops. -/
  functions : Array (List Statement)
  /-- The top level. -/
  main : List Statement
  deriving DecidableEq

def Statement.text : Statement → Text
  | add amount =>
    "tape.write((tape.read() + " ++ Numeral.integer amount ++ ") & 0xFF)"
  | move distance =>
    if 0 < distance then "tape.advance(" ++ Numeral.integer distance ++ ")"
    else "tape.retreat(" ++ Numeral.integer (-distance) ++ ")"
  | clear => "tape.write(0)"
  | output => "put_byte(sink, tape.read())"
  | input => "get_byte(tape, source, EOF_POLICY, sink)"
  | call loop => "_loop_" ++ Numeral.natural loop ++ "(tape, source, sink)"

namespace Script

/-- Statements inside the given number of blocks. -/
def block (level : Nat) (statements : List Statement) : List Text :=
  statements.map fun s => .replicate (4 * level) ' ' ++ s.text

def firstLine : Text := "#!/usr/bin/env python3"

/-- The line of a script that shows the name of its source. -/
def nameLine (s : Script) : Text :=
  "# Generated by bftape from " ++ Quoted.quote s.sourceName ++
    " (optimization level " ++ s.level ++ ")."

/-- The lines in front of the functions. -/
def header (s : Script) : List Text :=
  [firstLine,
   s.nameLine,
   "import sys",
   "",
   "from bftape.errors import BFError",
   "from bftape.runtime import EofPolicy, get_byte, put_byte",
   "from bftape.tape import Tape",
   "",
   "EOF_POLICY = EofPolicy." ++ s.policy.constant,
   "LOOP_DEPTH = " ++ Numeral.natural s.depth]

def loopFunction (number : Nat) (statements : List Statement) : List Text :=
  let opening : List Text :=
    ["", "",
     "def _loop_" ++ Numeral.natural number ++ "(tape, source, sink):",
     "    while tape.read() != 0:"]
  opening ++ if statements.isEmpty then [Text.ofString "        pass"] else block 2 statements

/-- The functions of the loops from a number on. -/
def loopFunctions : Nat → List (List Statement) → List Text
  | _, [] => []
  | number, statements :: functions =>
    loopFunction number statements ++ loopFunctions (number + 1) functions

/-- The function of the top level. -/
def runFunction (statements : List Statement) : List Text :=
  let opening : List Text :=
    ["", "",
     "def run(source, sink):",
     "    if LOOP_DEPTH + 200 > sys.getrecursionlimit():",
     "        sys.setrecursionlimit(LOOP_DEPTH + 200)",
     "    tape = Tape()"]
  opening ++ block 1 statements ++ [Text.ofString "    return tape"]

/-- The lines behind the functions. -/
def footer : List Text :=
  ["", "",
   "def main():",
   "    try:",
   "        run(sys.stdin.buffer, sys.stdout.buffer)",
   "    except BFError as e:",
   "        print(e, file=sys.stderr)",
   "        return 1",
   "    finally:",
   "        sys.stdout.buffer.flush()",
   "    return 0",
   "", "",
   "if __name__ == \"__main__\":",
   "    raise SystemExit(main())"]

def lines (s : Script) : List Text :=
  s.header ++ loopFunctions 0 s.functions.toList ++ runFunction s.main ++ footer

def text (s : Script) : Text := Lines.close s.lines

end Script

end TapeLang
