import TapeLang.Decimal.Shortest
import TapeLang.Text.IntegerLiteral
import TapeLang.Text.Quoted

/-! Loosely typed option values.

Options arrive as whatever the caller has: nothing, a truth value, an integer, a fraction, a text,
or something else that is no scalar at all. A scalar can be shown bare, shown quoted, or read as an
integer. -/
namespace TapeLang

/-- An option value of any type. -/
inductive Scalar where
  | null
  | bool (b : Bool)
  | int (i : Int)
  | fraction (x : Binary)
  | text (t : Text)
  /-- A value of another kind, with the name of its kind and as it is shown. -/
  | other (kind shown : Text)
  deriving DecidableEq, Inhabited

/-- Why a scalar is not an integer. -/
inductive IntegerFault where
  /-- Something of another kind was given, or nothing. -/
  | wrongKind (kind : Text)
  | infinite
  | undefined
  /-- The text does not read as an integer. -/
  | malformed (text : Text)
  /-- The text has too many digits. -/
  | tooLong (digits : Nat)
  deriving DecidableEq

namespace Scalar

def emptyList : Scalar := other "list" "[]"

/-- The greatest position of the point, counted from the first digit, at which a fraction is
written without an exponent. -/
def greatestPoint : Int := 16

/-- The least such position. -/
def leastPoint : Int := -3

/-- A fraction's digits with the point after the given number of them, at least one digit on
either side. -/
def positional (digits : Text) (point : Int) : Text :=
  let zeros (n : Nat) : Text := .replicate n '0'
  if point ≤ 0 then "0." ++ zeros (-point).toNat ++ digits
  else if point < digits.length then digits.take point.toNat ++ "." ++ digits.drop point.toNat
  else digits ++ zeros (point.toNat - digits.length) ++ ".0"

/-- A fraction's digits with a power of ten of at least two digits. -/
def scientific (digits : Text) (point : Int) : Text :=
  let power := point - 1
  let fraction : Text := match digits.drop 1 with
    | [] => []
    | more => "." ++ more
  let mark : Text := if power < 0 then "e-" else "e+"
  digits.take 1 ++ fraction ++ mark ++ (Numeral.natural power.natAbs).leftpad 2 (.char '0')

/-- A positive fraction by its shortest decimal. -/
def positiveFraction (significand : Nat) (exponent : Int) : Text :=
  let decimal := Decimal.shortest significand exponent
  let digits := Numeral.natural decimal.digits
  let point := digits.length + decimal.exponent
  let digits := (digits.reverse.dropWhile (· = .char '0')).reverse
  if leastPoint ≤ point ∧ point ≤ greatestPoint then positional digits point
  else scientific digits point

/-- A fraction, always with a point, an exponent or a name. -/
def showFraction : Binary → Text
  | .undefined => "nan"
  | .infinite negative => (if negative then "-inf" else "inf")
  | .finite negative significand exponent =>
    let text : Text := if significand = 0 then "0.0" else positiveFraction significand exponent
    if negative then "-" ++ text else text

/-- A scalar as a reader would expect it in running text: a text is shown bare. -/
def shown : Scalar → Text
  | null => "None"
  | bool true => "True"
  | bool false => "False"
  | int i => Numeral.integer i
  | fraction x => showFraction x
  | text t => t
  | other _ shown => shown

/-- A scalar as it is shown in an error: a text is quoted. -/
def quoted : Scalar → Text
  | text t => Quoted.quote t
  | s => s.shown

/-- A scalar read as an integer. Fractions are cut toward zero, truth values count as one and
zero, texts are read as integers. -/
def toInteger : Scalar → Except IntegerFault Int
  | null => .error (.wrongKind "NoneType")
  | other kind _ => .error (.wrongKind kind)
  | bool b => .ok (if b then 1 else 0)
  | int i => .ok i
  | fraction .undefined => .error .undefined
  | fraction (.infinite _) => .error .infinite
  | fraction (.finite negative significand exponent) =>
    let whole : Int := Binary.wholePart significand exponent
    .ok (if negative then -whole else whole)
  | text t =>
    match IntegerLiteral.read t with
    | .ok i => .ok i
    | .error .malformed => .error (.malformed t)
    | .error (.tooLong digits) => .error (.tooLong digits)

end Scalar

end TapeLang
