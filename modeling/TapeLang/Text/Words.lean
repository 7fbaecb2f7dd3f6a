import TapeLang.Text

/-! Text as words.

A text is cut at its blanks, and what stands between two cuts is a word unless nothing stands there.
So it does not matter how many blanks there are between two words or around a text. -/
namespace TapeLang.Words

def split (text : Text) : List Text := (text.splitOn (.char ' ')).filter fun word => !word.isEmpty

/-- A blank between two texts is a cut. -/
theorem split_append (text rest : Text) :
    split (text ++ .char ' ' :: rest) = split text ++ split rest := by
  rw [split, List.splitOn_append_cons_self, List.filter_append]
  rfl

theorem split_blank (text : Text) : split (.char ' ' :: text) = split text := split_append [] text

theorem split_blanks (n : Nat) (text : Text) :
    split (.replicate n (.char ' ') ++ text) = split text := by
  induction n with
  | zero => rfl
  | succ n ih => rw [List.replicate_succ, List.cons_append, split_blank, ih]

variable {word : Text}

/-- A text without blanks is one word. -/
theorem split_of_unbroken (nonempty : word ≠ []) (unbroken : CodePoint.char ' ' ∉ word) :
    split word = [word] := by
  rw [split, List.splitOn_eq_singleton unbroken]
  simp [nonempty]

theorem split_cons (nonempty : word ≠ []) (unbroken : CodePoint.char ' ' ∉ word) (rest : Text) :
    split (word ++ .char ' ' :: rest) = word :: split rest := by
  rw [split_append, split_of_unbroken nonempty unbroken, List.singleton_append]

end TapeLang.Words
