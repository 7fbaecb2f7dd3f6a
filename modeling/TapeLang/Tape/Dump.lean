import TapeLang.Tape
import TapeLang.Text.Lines
import TapeLang.Text.Numeral

/-! Tapes as text.

A dump shows the whole window in rows of a given width, each row with the address of its first cell
and the cell at the cursor between brackets, and below them the cursor, the span and the origin
offset. An empty tape is a single line. -/
namespace TapeLang.Tape

/-- A list in pieces of a given length, the last of which may be shorter. -/
def pieces {α : Type} (width : Nat) (l : List α) : List (List α) :=
  if width = 0 ∨ l.length = 0 then [] else l.take width :: pieces width (l.drop width)
termination_by l.length
decreasing_by simp only [List.length_drop]; omega

def dumpCell (cursor : Int) (entry : Int × UInt8) : Text :=
  let value := Numeral.zeroFilled 3 entry.2.toNat
  if entry.1 = cursor then "[" ++ value ++ "]" else " " ++ value ++ " "

def dumpRow (cursor : Int) (row : List (Int × UInt8)) : Text :=
  let address := match row with
    | [] => 0
    | entry :: _ => entry.1
  Numeral.alignRight 6 (Numeral.signed address) ++ ": " ++ row.flatMap (dumpCell cursor)

/-- The line below the rows. -/
def dumpSummary (t : Tape) (low high : Int) : Text :=
  "cursor=" ++ Numeral.integer t.cursor ++ " span=" ++ Numeral.integer low ++
    ".." ++ Numeral.integer high ++ " origin_offset=" ++
    Numeral.integer t.originOffset

/-- The window in rows of a given width. There are no rows of a negative width, and there is no
dump of stored cells in rows of width zero. -/
def dump? (t : Tape) (width : Int) : Option Text :=
  match t.span? with
  | none => some ("<empty tape, cursor=" ++ Numeral.integer t.cursor ++ ">")
  | some (low, high) =>
    if width = 0 then none
    else
      let rows := (pieces width.toNat t.entries).map (dumpRow t.cursor)
      some (Lines.join (rows ++ [t.dumpSummary low high]))

def defaultWidth : Int := 16

/-- A tape in short: where the cursor stands and how large the window is. -/
def summary (t : Tape) : Text :=
  "Tape(cursor=" ++ Numeral.integer t.cursor ++ ", origin_offset=" ++
    Numeral.integer t.originOffset ++ ", size=" ++ Numeral.natural t.size ++ ")"

end TapeLang.Tape
