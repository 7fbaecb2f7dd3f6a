import TapeLang.Proofs.Scripts

/-! Where the name of a source shows in a script.

A quoted text is made of printable characters alone, whatever the text holds
(`Quoted.isPrintable_of_mem_quote`), and none of the characters that end a line anywhere is
printable (`Printable.not_breaksLine`). The name stands quoted in the second line of a script, which
is a comment, and nowhere else; so two scripts that differ in the name differ inside one comment
each, however their lines are told apart (`name_stays_in_comment`). -/
namespace TapeLang

/-! ### Printable characters -/

/-- The numbers of the code points at which some reader of lines ends a line: newline, return,
vertical tab, form feed, the three separators, next line, and the separators of lines and
paragraphs. -/
def CodePoint.lineBreaks : List Nat :=
  [0x0a, 0x0b, 0x0c, 0x0d, 0x1c, 0x1d, 0x1e, 0x85, 0x2028, 0x2029]

/-- Whether a code point can end a line. -/
def CodePoint.breaksLine (c : CodePoint) : Bool := lineBreaks.contains c.toNat

namespace Printable

variable {c : CodePoint}

/-- Nothing printable ends a line. -/
theorem not_breaksLine (printable : isPrintable c = true) : c.breaksLine = false := by
  have hidden : ∀ n ∈ CodePoint.lineBreaks, covers gaps n = true := by decide +kernel
  rw [CodePoint.breaksLine, List.contains_eq_mem, decide_eq_false_iff_not]
  intro mem
  rw [isPrintable, hidden c.toNat mem] at printable
  cases printable

/-- The ASCII characters from the blank to the tilde are printable. -/
theorem isPrintable_of_ascii (above : 0x20 ≤ c.toNat) (below : c.toNat < 0x7f) :
    isPrintable c = true := by
  have shown : ∀ n < 0x7f, 0x20 ≤ n → covers gaps n = false := by decide +kernel
  rw [isPrintable, shown c.toNat below above, Bool.not_false]

theorem isPrintable_of_isDigit (digit : c.isDigit = true) : isPrintable c = true := by
  cases c with
  | half h => cases digit
  | char c =>
    have bounds : 48 ≤ c.toNat ∧ c.toNat ≤ 57 := by
      simpa [CodePoint.isDigit, Char.isDigit, Char.le_def, UInt32.le_iff_toNat_le] using digit
    exact isPrintable_of_ascii (Nat.le_trans (by decide) bounds.1)
      (Nat.lt_of_le_of_lt bounds.2 (by decide))

theorem isPrintable_of_mem_integer {n : Int} :
    ∀ c ∈ Numeral.integer n, isPrintable c = true := by
  have digits (k : Nat) : ∀ c ∈ Numeral.natural k, isPrintable c = true :=
    fun c mem => isPrintable_of_isDigit (Numeral.isDigit_of_mem_natural c mem)
  cases n with
  | ofNat n => exact digits n
  | negSucc n => exact List.forall_mem_cons.2 ⟨by decide +kernel, digits (n + 1)⟩

/-- The digits of a number in hexadecimal are printable. -/
theorem isPrintable_of_mem_toDigits (n : Nat) :
    ∀ c ∈ Nat.toDigits 16 n, isPrintable (.char c) = true := by
  have figure : ∀ d < 16, isPrintable (.char d.digitChar) = true := by decide +kernel
  induction n using Nat.strongRecOn with
  | ind n ih =>
    rw [Nat.toDigits_eq_if (by decide)]
    split
    · next small => simpa using figure n small
    · next large =>
      intro c mem
      rcases List.mem_append.1 mem with front | last
      · exact ih (n / 16) (by omega) c front
      · rw [List.mem_singleton.1 last]
        exact figure (n % 16) (Nat.mod_lt n (by decide))

end Printable

/-! ### Quoted texts -/

namespace Quoted
open Printable

theorem isPrintable_of_mem_hexadecimal {width n : Nat} :
    ∀ c ∈ hexadecimal width n, isPrintable c = true := by
  intro c mem
  rcases List.mem_append.1 mem with zero | digit
  · rw [List.eq_of_mem_replicate zero]
    exact isPrintable_of_isDigit rfl
  · obtain ⟨d, figure, rfl⟩ := List.mem_map.1 digit
    exact isPrintable_of_mem_toDigits n d figure

theorem isPrintable_of_mem_codeEscape (c : CodePoint) :
    ∀ e ∈ codeEscape c, isPrintable e = true := by
  have marked {letter : Text} (shown : ∀ e ∈ letter, isPrintable e = true) (width : Nat) :
      ∀ e ∈ letter ++ hexadecimal width c.toNat, isPrintable e = true :=
    List.forall_mem_append.2 ⟨shown, isPrintable_of_mem_hexadecimal⟩
  fun_cases codeEscape c with
  | case1 => exact marked (by decide +kernel) 2
  | case2 => exact marked (by decide +kernel) 4
  | case3 => exact marked (by decide +kernel) 8

/-- Whatever stands between printable marks is printable once it is escaped. -/
theorem isPrintable_of_mem_escape {enclosing : CodePoint}
    (shown : isPrintable enclosing = true) (c : CodePoint) :
    ∀ e ∈ escape enclosing c, isPrintable e = true := by
  have backslash : isPrintable (.char '\\') = true := by decide +kernel
  fun_cases escape enclosing c with
  | case1 special =>
    have itself : isPrintable c = true := by
      rcases special with rfl | rfl
      · exact shown
      · exact backslash
    exact List.forall_mem_cons.2 ⟨backslash, List.forall_mem_singleton.2 itself⟩
  | case2 => decide +kernel
  | case3 => decide +kernel
  | case4 => decide +kernel
  | case5 _ _ _ _ itself => exact List.forall_mem_singleton.2 itself
  | case6 => exact isPrintable_of_mem_codeEscape c

theorem isPrintable_mark (text : Text) : isPrintable (mark text) = true := by
  unfold mark
  split <;> decide +kernel

/-- **A quoted text is printable**, whatever the text holds. -/
theorem isPrintable_of_mem_quote (text : Text) : ∀ c ∈ quote text, isPrintable c = true := by
  have marks := isPrintable_mark text
  refine List.forall_mem_append.2 ⟨List.forall_mem_cons.2 ⟨marks, fun c mem => ?_⟩,
    List.forall_mem_singleton.2 marks⟩
  obtain ⟨source, -, inside⟩ := List.mem_flatMap.1 mem
  exact isPrintable_of_mem_escape marks source c inside

end Quoted

/-! ### The lines of a script -/

namespace Script

/-- A line that is a comment to its end, wherever lines end. -/
structure IsComment (line : Text) : Prop where
  marked : line.head? = some (.char '#')
  unbroken : ∀ c ∈ line, c.breaksLine = false

theorem not_newline_of_unbroken {line : Text} (unbroken : ∀ c ∈ line, c.breaksLine = false) :
    ∀ c ∈ line, c ≠ CodePoint.char '\n' ∧ c ≠ CodePoint.char '\r' := by
  intro c mem
  constructor
  · rintro rfl
    exact absurd (unbroken _ mem) (by decide)
  · rintro rfl
    exact absurd (unbroken _ mem) (by decide)

theorem physicalLines_append {line : Text} (unbroken : ∀ c ∈ line, c.breaksLine = false)
    (rest : Text) : physicalLines (line ++ .char '\n' :: rest) = line :: physicalLines rest := by
  induction line with
  | nil => rfl
  | cons c line ih =>
    obtain ⟨-, later⟩ := List.forall_mem_cons.1 unbroken
    obtain ⟨notNewline, notReturn⟩ := not_newline_of_unbroken unbroken c List.mem_cons_self
    rw [List.cons_append, physicalLines]
    · simp only [notNewline, notReturn, or_self, if_false, ih later]
    · rintro rest' rfl
      exact absurd rfl notReturn

/-- The ways to cut a text into lines: at newlines only, or as loading does. -/
def cuts : List (Text → List Text) := [Lines.split, physicalLines]

/-- A line that nothing breaks is cut off at the newline behind it. -/
theorem cut_append {cut : Text → List Text} (mem : cut ∈ cuts) {line : Text}
    (unbroken : ∀ c ∈ line, c.breaksLine = false) (rest : Text) :
    cut (line ++ .char '\n' :: rest) = line :: cut rest := by
  simp only [cuts, List.mem_cons, List.not_mem_nil, or_false] at mem
  rcases mem with rfl | rfl
  · rw [Lines.split_append, Lines.split_of_unbroken, List.singleton_append]
    exact fun newline => (not_newline_of_unbroken unbroken _ newline).1 rfl
  · exact physicalLines_append unbroken rest

theorem text_eq (s : Script) : s.text =
    firstLine ++ .char '\n' :: (s.nameLine ++ .char '\n' :: Lines.close (s.lines.drop 2)) :=
  rfl

theorem isComment_nameLine {s : Script} {level : Int} (h : s.level = Numeral.integer level) :
    IsComment s.nameLine where
  marked := rfl
  unbroken := by
    have before : ∀ c ∈ Text.ofString "# Generated by bftape from ", c.breaksLine = false := by
      decide
    have between : ∀ c ∈ Text.ofString " (optimization level ", c.breaksLine = false := by decide
    have behind : ∀ c ∈ Text.ofString ").", c.breaksLine = false := by decide
    have name : ∀ c ∈ Quoted.quote s.sourceName, c.breaksLine = false :=
      fun c mem => Printable.not_breaksLine (Quoted.isPrintable_of_mem_quote s.sourceName c mem)
    have number : ∀ c ∈ s.level, c.breaksLine = false :=
      fun c mem => Printable.not_breaksLine (Printable.isPrintable_of_mem_integer c (h ▸ mem))
    simp only [nameLine, List.forall_mem_append]
    exact ⟨⟨⟨⟨before, name⟩, between⟩, number⟩, behind⟩

end Script

/-- **The name of a source stays in a comment.** Whatever two sources are called, or if they have no
name, the scripts of a program for them are made of the same first line, one comment each and the
same rest, so they have equally many lines and differ at most in the second one. No line end of any
kind stands in the first line or in the comments, so this is so for the lines between newlines, for
the lines that loading cuts a script into, and for all other ways to tell lines apart. Numbers are
written in full here, however long they are; the limit of digits is kept for numbers that are given
(`IntegerLiteral.digitLimit`). -/
theorem name_stays_in_comment {word : Scalar} {policy : EndOfInput}
    (named : EndOfInput.ofScalar? word = some policy) (level : Int) (p : Program)
    (a b : Option Text) :
    ∃ s t, scriptOf (.int level) word a p = .ok s ∧ scriptOf (.int level) word b p = .ok t ∧
      ∃ first comment comment' rest : Text,
        (∀ c ∈ first, c.breaksLine = false) ∧ Script.IsComment comment ∧ Script.IsComment comment' ∧
        s.text = first ++ .char '\n' :: (comment ++ .char '\n' :: rest) ∧
        t.text = first ++ .char '\n' :: (comment' ++ .char '\n' :: rest) ∧
        ∀ cut ∈ Script.cuts, cut s.text = first :: comment :: cut rest ∧
          cut t.text = first :: comment' :: cut rest := by
  have unbroken : ∀ c ∈ Script.firstLine, c.breaksLine = false := by decide
  have comment (s : Script) (h : s.level = Numeral.integer level) := Script.isComment_nameLine h
  refine ⟨_, _, scriptOf_int named level a p, scriptOf_int named level b p, Script.firstLine, _, _,
    _, unbroken, comment _ rfl, comment _ rfl, Script.text_eq _, Script.text_eq _, ?_⟩
  intro cut mem
  constructor
  · rw [Script.text_eq, Script.cut_append mem unbroken,
      Script.cut_append mem (comment _ rfl).unbroken]
  · rw [Script.text_eq, Script.cut_append mem unbroken,
      Script.cut_append mem (comment _ rfl).unbroken]
    rfl

/-- A source that could break out of a comment and of quotation marks. -/
def hostileName : Text := "'\"\n\r\u2028import os\\\x7blevel\x7d"

/-- Beside a source without a name. -/
theorem name_stays_in_comment_hostile :
    EndOfInput.ofScalar? (.text "Zero") = some .zero ∧
    ∃ s t, scriptOf (.int (-1)) (.text "Zero") (some hostileName) (.loop .nil .nil) = .ok s ∧
      scriptOf (.int (-1)) (.text "Zero") none (.loop .nil .nil) = .ok t ∧
      (Lines.split s.text).length = (Lines.split t.text).length ∧
      (Lines.split s.text).tail.tail = (Lines.split t.text).tail.tail := by
  have named : EndOfInput.ofScalar? (.text "Zero") = some .zero := by decide
  obtain ⟨s, t, made, made', first, comment, comment', rest, -, -, -, -, -, cuts⟩ :=
    name_stays_in_comment named (-1) (.loop .nil .nil) (some hostileName) none
  obtain ⟨here, there⟩ := cuts Lines.split (.head _)
  exact ⟨named, s, t, made, made', by rw [here, there]; rfl, by rw [here, there]; rfl⟩

end TapeLang
