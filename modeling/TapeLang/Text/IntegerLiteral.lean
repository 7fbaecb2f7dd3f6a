import TapeLang.Text.DecimalDigit

/-! Reading an integer from a text.

The text may have blanks around the number, a sign in front of it, decimal digits of any script and
a single underscore between two digits. A number of more than 4300 digits is refused. -/
namespace TapeLang.IntegerLiteral

/-- Why a text is not an integer. -/
inductive Fault where
  /-- The text has another form. -/
  | malformed
  /-- The number has too many digits. -/
  | tooLong (digits : Nat)
  deriving DecidableEq

/-- The most digits a number may have. -/
def digitLimit : Nat := 4300

/-- The blanks that may stand around a number. -/
def isBlank (c : CodePoint) : Bool :=
  let n := c.toNat
  (0x09 ≤ n && n ≤ 0x0d) || n == 0x20 || n == 0x85 || n == 0xa0 || n == 0x1680 ||
    (0x2000 ≤ n && n ≤ 0x200a) || n == 0x2028 || n == 0x2029 || n == 0x202f || n == 0x205f ||
    n == 0x3000

/-- The digits at the front of a text and what follows them, or nothing if an underscore stands
anywhere but between two digits. The flag says that a digit has to come next. -/
def leadingDigits : Bool → Text → Option (List Nat × Text)
  | digitDue, [] => if digitDue then none else some ([], [])
  | digitDue, c :: text =>
    if c = '_' then
      if digitDue then none else leadingDigits true text
    else
      match DecimalDigit.value? c with
      | some d => (leadingDigits false text).map fun (ds, rest) => (d :: ds, rest)
      | none => if digitDue then none else some ([], c :: text)

def valueOf (digits : List Nat) : Nat := digits.foldl (fun n d => 10 * n + d) 0

/-- The sign in front of a text, and the text without it. -/
def leadingSign : Text → Bool × Text
  | .char '-' :: text => (true, text)
  | .char '+' :: text => (false, text)
  | text => (false, text)

def read (text : Text) : Except Fault Int :=
  let (negative, unsigned) := leadingSign (text.dropWhile isBlank)
  match leadingDigits true unsigned with
  | none => .error .malformed
  | some (digits, rest) =>
    if digitLimit < digits.length then .error (.tooLong digits.length)
    else if rest.all isBlank then
      .ok (if negative then -(valueOf digits : Int) else valueOf digits)
    else .error .malformed

end TapeLang.IntegerLiteral
