import TapeLang.Text.IntegerLiteral
import TapeLang.Text.Numeral

/-! Reading numbers back from their texts.

Only the digits from 0 to 9 are read, and nothing may stand around a number. Zeros in front of it
and a sign, where one may stand, are no hindrance, so a number is read back from each text that is
written for it (`natural?_natural`, `integer?_integer`, `signed?_signed`, `signed?_zeroFilled`). -/
namespace TapeLang.Numeral

def natural? (text : Text) : Option Nat :=
  if text.isEmpty || !text.all CodePoint.isDigit then none
  else some (IntegerLiteral.valueOf (text.map fun c => c.toNat - CodePoint.toNat '0'))

/-- The number that decimal digits denote, with a minus sign in front if it is negative. -/
def integer? : Text → Option Int
  | .char '-' :: digits => (natural? digits).map fun n => -(n : Int)
  | digits => (natural? digits).map Int.ofNat

/-- The number that decimal digits denote, with either sign in front or none. -/
def signed? : Text → Option Int
  | .char '+' :: digits => (natural? digits).map Int.ofNat
  | text => integer? text

/-! ### Digits -/

theorem natural?_natural (n : Nat) : natural? (natural n) = some n := by
  have some_digit : (natural n).isEmpty = false := List.isEmpty_eq_false_iff.2 (natural_ne_nil n)
  have digits : (natural n).all CodePoint.isDigit = true :=
    List.all_eq_true.2 isDigit_of_mem_natural
  have value : IntegerLiteral.valueOf
      ((natural n).map fun c => c.toNat - CodePoint.toNat '0') = n := by
    simp only [natural, Text.ofChars, List.map_map, IntegerLiteral.valueOf, List.foldl_map]
    exact Nat.ofDigitChars_toDigits (by decide) (by decide)
  simp only [natural?, some_digit, digits, value, Bool.not_true, Bool.or_self]
  rfl

theorem natural?_zero {digits : Text} (nonempty : digits ≠ []) :
    natural? (.char '0' :: digits) = natural? digits := by
  simp only [natural?, List.isEmpty_cons, List.isEmpty_eq_false_iff.2 nonempty, List.all_cons,
    Bool.false_or]
  rfl

/-- Zeros in front of a number do not change it. -/
theorem natural?_leftpad (width n : Nat) :
    natural? ((natural n).leftpad width (.char '0')) = some n := by
  rw [List.leftpad]
  induction width - (natural n).length with
  | zero => exact natural?_natural n
  | succ zeros ih =>
    rw [List.replicate_succ, List.cons_append,
      natural?_zero (List.append_ne_nil_of_right_ne_nil _ (natural_ne_nil n)), ih]

theorem isDigit_of_mem_leftpad {width n : Nat} :
    ∀ c ∈ (natural n).leftpad width (.char '0'), c.isDigit = true := by
  intro c mem
  rcases List.mem_append.1 mem with zero | digit
  · exact List.eq_of_mem_replicate zero ▸ by decide
  · exact isDigit_of_mem_natural c digit

/-! ### Signs -/

/-- Digits without a sign are read as they are. -/
theorem integer?_of_digits {text : Text} (digits : ∀ c ∈ text, c.isDigit = true) :
    integer? text = (natural? text).map Int.ofNat := by
  unfold integer?
  split
  · exact absurd (digits _ List.mem_cons_self) (by decide)
  · rfl

theorem signed?_of_digits {text : Text} (digits : ∀ c ∈ text, c.isDigit = true) :
    signed? text = (natural? text).map Int.ofNat := by
  unfold signed?
  split
  · exact absurd (digits _ List.mem_cons_self) (by decide)
  · exact integer?_of_digits digits

theorem integer?_integer (n : Int) : integer? (integer n) = some n := by
  cases n with
  | negSucc n =>
    simp only [integer, integer?, natural?_natural]
    rfl
  | ofNat n => rw [integer, integer?_of_digits isDigit_of_mem_natural, natural?_natural]; rfl

theorem signed?_signed (n : Int) : signed? (signed n) = some n := by
  cases n with
  | negSucc n => exact integer?_integer (.negSucc n)
  | ofNat n =>
    simp only [signed, signed?, natural?_natural]
    rfl

theorem signed?_zeroFilled (width : Nat) (n : Int) : signed? (zeroFilled width n) = some n := by
  cases n with
  | negSucc n =>
    show integer? (.char '-' :: (natural (n + 1)).leftpad (width - 1) (.char '0')) = _
    simp only [integer?, natural?_leftpad]
    rfl
  | ofNat n =>
    rw [zeroFilled, signed?_of_digits isDigit_of_mem_leftpad, natural?_leftpad]
    rfl

/-! ### What stands in a number -/

theorem signed_ne_nil (n : Int) : signed n ≠ [] := by
  cases n <;> exact List.cons_ne_nil _ _

theorem zeroFilled_ne_nil (width : Nat) (n : Int) : zeroFilled width n ≠ [] := by
  cases n with
  | ofNat n => exact List.append_ne_nil_of_right_ne_nil _ (natural_ne_nil n)
  | negSucc n => exact List.cons_ne_nil _ _

/-- Whether a code point can stand in the text of a number. -/
def isFigure (c : CodePoint) : Bool := c.isDigit || c = .char '+' || c = .char '-'

theorem isFigure_of_isDigit {c : CodePoint} (digit : c.isDigit = true) : isFigure c = true := by
  simp [isFigure, digit]

theorem isFigure_of_digits {digits : Text} (all : ∀ c ∈ digits, c.isDigit = true) :
    ∀ c ∈ digits, isFigure c = true :=
  fun c mem => isFigure_of_isDigit (all c mem)

theorem isFigure_of_sign {sign : CodePoint} (figure : isFigure sign = true) {digits : Text}
    (all : ∀ c ∈ digits, c.isDigit = true) : ∀ c ∈ sign :: digits, isFigure c = true :=
  List.forall_mem_cons.2 ⟨figure, isFigure_of_digits all⟩

theorem isFigure_of_mem_signed {n : Int} : ∀ c ∈ signed n, isFigure c = true := by
  cases n with
  | ofNat n => exact isFigure_of_sign rfl isDigit_of_mem_natural
  | negSucc n => exact isFigure_of_sign rfl isDigit_of_mem_natural

theorem isFigure_of_mem_zeroFilled {width : Nat} {n : Int} :
    ∀ c ∈ zeroFilled width n, isFigure c = true := by
  cases n with
  | ofNat n => exact isFigure_of_digits isDigit_of_mem_leftpad
  | negSucc n => exact isFigure_of_sign rfl isDigit_of_mem_leftpad

theorem isFigure_of_mem_integer {n : Int} : ∀ c ∈ integer n, isFigure c = true := by
  cases n with
  | ofNat n => exact isFigure_of_digits isDigit_of_mem_natural
  | negSucc n => exact isFigure_of_sign rfl isDigit_of_mem_natural

theorem not_mem_of_isFigure {c : CodePoint} {text : Text}
    (figures : ∀ c ∈ text, isFigure c = true) (other : isFigure c = false) : c ∉ text := by
  intro mem
  rw [figures c mem] at other
  cases other

/-- A number ends where something stands that is no part of one. -/
theorem eq_of_integer_append {n n' : Int} {c : CodePoint} {rest rest' : Text}
    (other : isFigure c = false) (same : integer n ++ c :: rest = integer n' ++ c :: rest') :
    n = n' ∧ rest = rest' := by
  have clear (n : Int) : c ∉ integer n := not_mem_of_isFigure isFigure_of_mem_integer other
  obtain ⟨digits, behind⟩ := Text.eq_of_cut (clear n) (clear n') same
  have read := integer?_integer n
  rw [digits, integer?_integer] at read
  exact ⟨(Option.some.inj read).symm, behind⟩

end TapeLang.Numeral
