/-! Texts.

A text is a row of code points. Most code points are characters; the others are surrogates, the
halves of pairs, which may stand in a text alone. A half is no character, but it counts as one
wherever characters are counted, and it is never mistaken for one. -/
namespace TapeLang

inductive CodePoint where
  | char (c : Char)
  /-- A surrogate, by its distance from the first one. -/
  | half (h : Fin 2048)
  deriving DecidableEq, Inhabited

namespace CodePoint

instance : Coe Char CodePoint := ⟨char⟩

/-- The first surrogate. -/
def firstHalf : Nat := 0xd800

def toNat : CodePoint → Nat
  | char c => c.toNat
  | half h => firstHalf + h

/-- The code point of a number. A number beyond all code points stands for the null character. -/
def ofNat (n : Nat) : CodePoint :=
  if h : firstHalf ≤ n ∧ n - firstHalf < 2048 then half ⟨n - firstHalf, h.2⟩ else char (.ofNat n)

/-- A code point with a character replaced by another one. -/
def mapChar (f : Char → Char) : CodePoint → CodePoint
  | char c => f c
  | half h => half h

/-- The lower-case letter of an ASCII letter. -/
def toLower : CodePoint → CodePoint := mapChar Char.toLower

/-- The upper-case letter of an ASCII letter. -/
def toUpper : CodePoint → CodePoint := mapChar Char.toUpper

/-- Whether a code point is an ASCII digit. -/
def isDigit : CodePoint → Bool
  | char c => c.isDigit
  | half _ => false

end CodePoint

/-- A row of code points. -/
abbrev Text := List CodePoint

namespace Text

def ofChars (cs : List Char) : Text := cs.map .char

def ofString (s : String) : Text := ofChars s.toList

instance : Coe String Text := ⟨ofString⟩

/-- There is one way to cut a text at the first place of a code point. -/
theorem eq_of_cut {c : CodePoint} {front front' rest rest' : Text} (clear : c ∉ front)
    (clear' : c ∉ front') (same : front ++ c :: rest = front' ++ c :: rest') :
    front = front' ∧ rest = rest' := by
  induction front generalizing front' with
  | nil =>
    cases front' with
    | nil => exact ⟨rfl, (List.cons.inj same).2⟩
    | cons d front' => exact absurd ((List.cons.inj same).1 ▸ List.mem_cons_self) clear'
  | cons d front ih =>
    cases front' with
    | nil => exact absurd ((List.cons.inj same).1 ▸ List.mem_cons_self) clear
    | cons d' front' =>
      obtain ⟨rfl, tail⟩ := List.cons.inj same
      obtain ⟨rfl, rest⟩ :=
        ih (fun mem => clear (.tail d mem)) (fun mem => clear' (.tail d mem)) tail
      exact ⟨rfl, rest⟩

end Text

end TapeLang
