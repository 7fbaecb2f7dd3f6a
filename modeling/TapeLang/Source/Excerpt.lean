import TapeLang.Source.Position
import TapeLang.Text.Lines
import TapeLang.Text.Numeral

/-! Excerpts of a source text.

An excerpt shows a line with a few lines around it. Each row has a mark, the line's number and its
text; the line itself is marked and has a row below it with a caret under the column. -/
namespace TapeLang.Excerpt

/-- One line of the source as a row. -/
def row (marked : Bool) (number : Int) (line : Text) : Text :=
  (if marked then "> " else "  ") ++ Numeral.alignRight 4 (Numeral.integer number) ++ " | " ++ line

/-- The row with the caret. Its blanks make up for a line number of up to four digits. -/
def caretRow (column : Int) : Text :=
  .replicate 9 ' ' ++ .replicate (column - 1).toNat ' ' ++ "^"

/-- The rows of consecutive lines, the first of which has the given number. -/
def rows (target column : Int) : Int → List Text → List Text
  | _, [] => []
  | number, line :: lines =>
    let following := rows target column (number + 1) lines
    if number = target then row true number line :: caretRow column :: following
    else row false number line :: following

/-- The number of the line that is marked. -/
def target (place : Position) : Int := max 1 place.line

def first (place : Position) (around : Int) : Int := max 1 (target place - around)

def last (lines : List Text) (place : Position) (around : Int) : Int :=
  min (lines.length : Int) (target place + around)

/-- The line at a place, with up to `around` lines before and after it. -/
def make (lines : List Text) (place : Position) (around : Int) : Text :=
  let first := first place around
  let last := last lines place around
  let shown := (lines.drop (first - 1).toNat).take (last - first + 1).toNat
  Lines.join (rows (target place) place.column first shown)

/-- Whether the marked line is among those shown. -/
def shows (lines : List Text) (place : Position) (around : Int) : Bool :=
  first place around ≤ target place && target place ≤ last lines place around

/-- Why a caret cannot be shown. -/
inductive CaretFault where
  /-- The blanks in front of it cannot be counted in sixty-four bits. -/
  | tooFar
  deriving DecidableEq

/-- Why a caret cannot be shown under a column, if it cannot. -/
def caretFault? (column : Int) : Option CaretFault :=
  let blanks := column - 1
  if blanks < -9223372036854775808 ∨ 9223372036854775807 < blanks then some .tooFar else none

/-- The excerpt, unless it has a caret that cannot be shown. -/
def ofPlace (lines : List Text) (place : Position) (around : Int) : Except CaretFault Text :=
  match caretFault? place.column with
  | some fault =>
    if shows lines place around then .error fault else .ok (make lines place around)
  | none => .ok (make lines place around)

end TapeLang.Excerpt
