import TapeLang.Script

/-! Loading scripts.

A script shows the level in a comment, as it was asked for. A line end in the text of the level ends
the comment too: what follows it stands on lines of its own, and since the last of them ends with
the bracket and the full stop that were to close the comment, a script with such a level cannot be
loaded. The first line that is no statement decides how loading fails. -/
namespace TapeLang.Script

/-- Why a script cannot be loaded. -/
inductive LoadFault where
  /-- A line is no statement. -/
  | malformed
  /-- A line is indented where none may be. -/
  | indented
  deriving DecidableEq

/-- The lines of a text that is loaded. Besides the newline, the return ends a line, alone or with a
newline behind it. -/
def physicalLines : Text → List Text
  | [] => [[]]
  | .char '\r' :: .char '\n' :: text => [] :: physicalLines text
  | c :: text =>
    if c = '\n' ∨ c = '\r' then [] :: physicalLines text
    else
      match physicalLines text with
      | [] => [[c]]
      | line :: lines => (c :: line) :: lines

/-- How far apart tab stops are. -/
def tabWidth : Nat := 8

/-- The column at which the text of a line begins, from a given column on, and that text. A form
feed starts over at column zero. -/
def indentation : Nat → Text → Nat × Text
  | column, c :: line =>
    if c = ' ' then indentation (column + 1) line
    else if c = '\t' then indentation ((column / tabWidth + 1) * tabWidth) line
    else if c = '\x0c' then indentation 0 line
    else (column, c :: line)
  | column, [] => (column, [])

/-- Whether a text goes on with digits of a kind, perhaps with single underscores in front of them,
and then with blanks only. -/
def digitsThenBlanks (isDigit : CodePoint → Bool) : Text → Bool
  | .char '_' :: c :: text => isDigit c && digitsThenBlanks isDigit text
  | c :: text =>
    if isDigit c then digitsThenBlanks isDigit text
    else (c :: text).all fun c => c = ' ' ∨ c = '\t' ∨ c = '\x0c'
  | [] => true

/-- Whether a text is a number as it can stand in a script: without needless zeros in front. -/
def isNumber : Text → Bool
  | .char '0' :: text => digitsThenBlanks (· = .char '0') text
  | c :: text => c.isDigit && digitsThenBlanks CodePoint.isDigit text
  | [] => false

/-- Whether a text is a statement by which nothing happens: a number, perhaps with a sign. -/
def isIdle : Text → Bool
  | .char '+' :: text => isNumber text
  | .char '-' :: text => isNumber text
  | text => isNumber text

/-- What is wrong with a line outside all functions, unless it is blank or a number. -/
def lineFault? (line : Text) : Option LoadFault :=
  match indentation 0 line with
  | (_, []) => none
  | (column, text) =>
    if 0 < column then some .indented else if isIdle text then none else some .malformed

def loadFault? (s : Script) : Option LoadFault :=
  ((physicalLines (s.level ++ ").")).drop 1).findSome? lineFault?

end TapeLang.Script
