import TapeLang.Text.Numeral
import TapeLang.Text.Printable

/-! Quoted text.

A text is put between apostrophes, or between double quotes if it holds apostrophes and no double
quote. Inside, the enclosing mark and the backslash get a backslash in front, and a character that
is not printable is written as an escape: a letter for newline, return and tab, else its code in
hexadecimal with two, four or eight digits. A quoted text is therefore one line of printable
characters. -/
namespace TapeLang.Quoted

/-- The mark that encloses a text. -/
def mark (text : Text) : CodePoint :=
  if text.contains '\'' && !text.contains '"' then '"' else '\''

/-- The lower-case hexadecimal digits of a number, filled up with zeros. -/
def hexadecimal (width n : Nat) : Text := (Text.ofChars (Nat.toDigits 16 n)).leftpad width '0'

/-- The escape of a code point by its number. -/
def codeEscape (c : CodePoint) : Text :=
  let n := c.toNat
  if n < 0x100 then "\\x" ++ hexadecimal 2 n
  else if n < 0x10000 then "\\u" ++ hexadecimal 4 n
  else "\\U" ++ hexadecimal 8 n

/-- One code point between the given marks. -/
def escape (enclosing c : CodePoint) : Text :=
  if c = enclosing ∨ c = '\\' then ['\\', c]
  else if c = '\n' then ['\\', 'n']
  else if c = '\r' then ['\\', 'r']
  else if c = '\t' then ['\\', 't']
  else if Printable.isPrintable c then [c]
  else codeEscape c

/-- A text as characters alone, with an escape in place of each surrogate. -/
def characters : Text → List Char
  | [] => []
  | .char c :: text => c :: characters text
  | .half h :: text => '\\' :: 'u' :: Nat.toDigits 16 (CodePoint.half h).toNat ++ characters text

/-- A text as a string, with an escape in place of each surrogate. -/
def display (text : Text) : String := .ofList (characters text)

def quote (text : Text) : Text :=
  mark text :: text.flatMap (escape (mark text)) ++ [mark text]

end TapeLang.Quoted
