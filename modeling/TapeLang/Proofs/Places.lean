import TapeLang.Source.Position
import TapeLang.Text.Lines

/-! Which character a line and a column stand for.

A text is cut into lines, and a line and a column show a character of it (`Position.Shows`). For a
character that is no newline they are those that are found by counting in the text in front of it
(`Position.shows_iff`), and no others. -/
namespace TapeLang

namespace Lines

/-- How much room lines take, each with a newline behind it. -/
def extent : List Text → Nat
  | [] => 0
  | line :: lines => line.length + 1 + extent lines

theorem length_close (lines : List Text) : (close lines).length = extent lines := by
  induction lines with
  | nil => rfl
  | cons line lines ih =>
    simp only [close, List.length_append, List.length_cons, ih, extent]
    omega

/-- A character of a text stands in a line, behind some lines before it and so many characters of
the line. Its offset counts all of them, and the newline behind each of those lines. -/
structure Locates (s : Text) (offset : Nat) (c : CodePoint) (before : List Text) (own : Text)
    (column : Nat) : Prop where
  cut : ∃ after, split s = before ++ own :: after
  here : own[column]? = some c
  offset_eq : extent before + column = offset

end Lines

/-- A line and a column, both counted from one, are those of a character of a text. -/
def Position.Shows (place : Position) (s : Text) (offset : Nat) (c : CodePoint) : Prop :=
  ∃ before line, ∃ column : Nat,
    Lines.Locates s offset c before line column ∧ place = ⟨before.length + 1, column + 1⟩

namespace Position

theorem bound_ofNat {length offset : Nat} (h : offset ≤ length) : bound length offset = offset := by
  simp only [bound, Int.toNat_natCast, Nat.min_eq_left h]
  exact if_neg (Int.not_lt.2 (Int.natCast_nonneg offset))

theorem count_newline_close {lines : List Text} (h : ∀ line ∈ lines, CodePoint.char '\n' ∉ line) :
    (Lines.close lines).count (.char '\n') = lines.length := by
  induction lines with
  | nil => rfl
  | cons line lines ih =>
    obtain ⟨first, others⟩ := List.forall_mem_cons.1 h
    rw [Lines.close, List.count_append, List.count_cons_self, ih others, List.count_eq_zero.2 first,
      List.length_cons]
    omega

/-- Closed lines end where a line starts. -/
theorem lineStart_close (lines : List Text) {last : Text} (h : CodePoint.char '\n' ∉ last) :
    lineStart (Lines.close lines ++ last) = (Lines.close lines).length := by
  have inLast : ∀ c ∈ last.reverse, decide (c ≠ CodePoint.char '\n') = true := by
    intro c mem
    exact decide_eq_true fun newline => h (newline ▸ List.mem_reverse.1 mem)
  have ended : (Lines.close lines).reverse.takeWhile (· ≠ CodePoint.char '\n') = [] := by
    rcases List.eq_nil_or_concat lines with rfl | ⟨front, line, rfl⟩
    · rfl
    · have closed : Lines.close (front ++ [line]) =
          Lines.close front ++ (line ++ [CodePoint.char '\n']) := by
        induction front with
        | nil => rfl
        | cons first front ih =>
          rw [List.cons_append, Lines.close, ih, Lines.close, List.append_assoc, List.cons_append]
      simp [closed]
  rw [lineStart, List.reverse_append, List.takeWhile_append_of_pos inLast, ended]
  simp

/-- Behind closed lines and the beginning of another one, the counting comes to that line and to the
column behind the beginning. -/
theorem locate_close {lines : List Text} {start : Text}
    (inside : ∀ line ∈ lines, CodePoint.char '\n' ∉ line) (unbroken : CodePoint.char '\n' ∉ start)
    (rest : Text) :
    locate (Lines.close lines ++ start ++ rest) ((Lines.close lines ++ start).length : Nat) =
      ⟨lines.length + 1, start.length + 1⟩ := by
  have bounded : bound (Lines.close lines ++ start ++ rest).length
      ((Lines.close lines ++ start).length : Nat) = (Lines.close lines ++ start).length :=
    bound_ofNat (by simp only [List.length_append]; omega)
  have newlines : (Lines.close lines ++ start).count (.char '\n') = lines.length := by
    rw [List.count_append, count_newline_close inside, List.count_eq_zero.2 unbroken]
    rfl
  simp only [locate, bounded, List.take_left, newlines, lineStart_close lines unbroken, mk.injEq,
    true_and]
  rw [List.length_append]
  omega

variable {place : Position} {s : Text} {offset : Nat} {c : CodePoint}

theorem locate_of_shows (h : place.Shows s offset c) :
    s[offset]? = some c ∧ place = locate s offset := by
  obtain ⟨before, line, column, ⟨⟨after, cut⟩, here, rfl⟩, rfl⟩ := h
  have inside : ∀ line ∈ before, CodePoint.char '\n' ∉ line := fun line mem =>
    Lines.unbroken_of_mem_split (cut ▸ List.mem_append_left _ mem)
  have unbroken : CodePoint.char '\n' ∉ line :=
    Lines.unbroken_of_mem_split (cut ▸ List.mem_append_right _ List.mem_cons_self)
  obtain ⟨rest, tail⟩ : ∃ rest, Lines.join (line :: after) = line ++ rest := by
    cases after with
    | nil => exact ⟨[], (List.append_nil line).symm⟩
    | cons next after => exact ⟨_, rfl⟩
  have whole : s = Lines.close before ++ (line ++ rest) := by
    rw [← Lines.join_split s, cut, Lines.join_append before (List.cons_ne_nil line after), tail]
  obtain ⟨within, -⟩ := List.getElem?_eq_some_iff.1 here
  have length : (line.take column).length = column := List.length_take_of_le (Nat.le_of_lt within)
  rw [← Lines.length_close]
  constructor
  · rw [whole, List.getElem?_append_right (Nat.le_add_right _ _), Nat.add_sub_cancel_left,
      List.getElem?_append_left within, here]
  · have start : CodePoint.char '\n' ∉ line.take column :=
      fun mem => unbroken (List.mem_of_mem_take mem)
    have found := locate_close inside start (line.drop column ++ rest)
    rw [List.append_assoc, ← List.append_assoc (line.take column), List.take_append_drop,
      List.length_append, length, ← whole] at found
    exact found.symm

theorem exists_shows (here : s[offset]? = some c) (visible : c ≠ .char '\n') :
    ∃ place : Position, place.Shows s offset c := by
  obtain ⟨inside, same⟩ := List.getElem?_eq_some_iff.1 here
  have split : s = s.take offset ++ c :: s.drop (offset + 1) := by simp [← same]
  obtain ⟨before, start, front, closed, unbroken⟩ := Lines.exists_close (s.take offset)
  obtain ⟨line, after, rest⟩ :=
    List.exists_cons_of_ne_nil (Lines.split_ne_nil (s.drop (offset + 1)))
  have cut : Lines.split s = before ++ (start ++ c :: line) :: after := by
    rw [split, front, List.append_assoc, Lines.split_close_append,
      Lines.flatMap_split_of_unbroken closed,
      Lines.split_append_of_unbroken unbroken (Lines.split_cons visible rest)]
  have length := congrArg List.length front
  rw [List.length_take_of_le (Nat.le_of_lt inside), List.length_append,
    Lines.length_close] at length
  exact ⟨_, before, _, start.length, ⟨⟨after, cut⟩, by simp, length.symm⟩, rfl⟩

/-- **A line and a column show a character exactly if counting finds them.** -/
theorem shows_iff (visible : c ≠ .char '\n') :
    place.Shows s offset c ↔ s[offset]? = some c ∧ place = locate s offset := by
  refine ⟨locate_of_shows, ?_⟩
  intro found
  obtain ⟨here, rfl⟩ := found
  obtain ⟨place, shows⟩ := exists_shows here visible
  exact (locate_of_shows shows).2 ▸ shows

end Position

end TapeLang
