import TapeLang.Text

/-! Places in a source text.

A place is an offset; readers want a line and a column, both counted from one, where lines end at
newline characters only. An offset outside the text is allowed: the lines are counted up to the
nearest place inside it, where a negative offset counts from the end, and the column is reckoned
from the offset as given. -/
namespace TapeLang

structure Position where
  line : Int
  column : Int
  deriving DecidableEq

namespace Position

/-- The place inside a text of the given length that stands for an offset. -/
def bound (length : Nat) (offset : Int) : Nat :=
  if offset < 0 then (offset + length).toNat else min offset.toNat length

/-- How many code points stand before the line on which a text ends. -/
def lineStart (before : Text) : Nat :=
  before.length - (before.reverse.takeWhile (· ≠ .char '\n')).length

/-- The line and the column of an offset. -/
def locate (source : Text) (offset : Int) : Position :=
  let before := source.take (bound source.length offset)
  { line := before.count (.char '\n') + 1
    column := offset - lineStart before + 1 }

end Position

end TapeLang
