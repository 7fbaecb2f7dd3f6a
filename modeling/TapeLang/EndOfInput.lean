import TapeLang.Scalar

/-! What reading a byte does when the input has no bytes left. -/
namespace TapeLang

/-- What reading a byte does when the input has no bytes left. -/
inductive EndOfInput where
  /-- Reading fails. -/
  | error
  /-- Zero is read. -/
  | zero
  /-- The cell keeps its byte. -/
  | unchanged
  deriving DecidableEq, Inhabited

namespace EndOfInput

/-- All policies, in the order in which they are offered. -/
def all : List EndOfInput := [error, zero, unchanged]

def word : EndOfInput → Text
  | error => "error"
  | zero => "zero"
  | unchanged => "unchanged"

/-- The constant for a policy in a script. -/
def constant (p : EndOfInput) : Text := p.word.map CodePoint.toUpper

/-- The policy a scalar names, whatever the case of its letters. Lowering the ASCII letters is
enough: no other character lowers to a letter of the words. -/
def ofScalar? (s : Scalar) : Option EndOfInput :=
  let lowered := s.shown.map CodePoint.toLower
  all.find? (·.word = lowered)

theorem ofScalar?_word (p : EndOfInput) : ofScalar? (.text p.word) = some p := by
  cases p <;> decide

end EndOfInput

end TapeLang
