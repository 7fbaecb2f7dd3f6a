import TapeLang.Text

/-! Numbers as text: decimal digits, a sign where one is wanted, padding to a least width.

A field that is wider than its least width is written in full, so no number is ever cut. However
long a number is, it can be written; only where numbers are read there is a limit to their digits
(`IntegerLiteral.digitLimit`). -/
namespace TapeLang.Numeral

def natural (n : Nat) : Text := .ofChars (Nat.toDigits 10 n)

/-- A number with a minus sign if it is negative. -/
def integer : Int → Text
  | .ofNat n => natural n
  | .negSucc n => '-' :: natural (n + 1)

/-- A number with a sign, whatever its sign is. -/
def signed : Int → Text
  | .ofNat n => '+' :: natural n
  | .negSucc n => '-' :: natural (n + 1)

/-- A number filled up with zeros between its sign and its digits. The sign counts for the width. -/
def zeroFilled (width : Nat) : Int → Text
  | .ofNat n => (natural n).leftpad width '0'
  | .negSucc n => '-' :: (natural (n + 1)).leftpad (width - 1) '0'

/-- A text with blanks in front, up to a width. -/
def alignRight (width : Nat) (text : Text) : Text := text.leftpad width ' '

/-- A text with blanks behind, up to a width. -/
def alignLeft (width : Nat) (text : Text) : Text := text.rightpad width ' '

/-! ### Digits -/

theorem natural_ne_nil (n : Nat) : natural n ≠ [] := by
  simp [natural, Text.ofChars, Nat.toDigits_ne_nil]

theorem isDigit_of_mem_natural {n : Nat} : ∀ c ∈ natural n, c.isDigit = true := by
  intro c mem
  obtain ⟨d, digit, rfl⟩ := List.mem_map.1 mem
  exact Nat.isDigit_of_mem_toDigits (by decide) (by decide) digit

theorem unbroken_of_isDigit {c : CodePoint} (h : c.isDigit = true) :
    c ≠ .char '\n' ∧ c ≠ .char '\r' := by
  constructor
  · rintro rfl
    exact absurd h (by decide)
  · rintro rfl
    exact absurd h (by decide)

theorem unbroken_natural (n : Nat) :
    ∀ c ∈ natural n, c ≠ CodePoint.char '\n' ∧ c ≠ CodePoint.char '\r' :=
  fun c mem => unbroken_of_isDigit (isDigit_of_mem_natural c mem)

theorem unbroken_integer (n : Int) :
    ∀ c ∈ integer n, c ≠ CodePoint.char '\n' ∧ c ≠ CodePoint.char '\r' := by
  cases n with
  | ofNat n => exact unbroken_natural n
  | negSucc n => exact List.forall_mem_cons.2 ⟨by decide, unbroken_natural (n + 1)⟩

end TapeLang.Numeral
