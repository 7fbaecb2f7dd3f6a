import TapeLang.Text

/-! Text as lines.

A text is cut at its newline characters and at nothing else; the cut text has one line more than
the text has newlines. Cutting and joining undo each other, and so do closing lines and cutting
them, up to an empty line at the end. -/
namespace TapeLang.Lines

/-- The lines of a text. -/
def split : Text → List Text
  | [] => [[]]
  | c :: text =>
    match split text with
    | [] => [[c]]
    | line :: lines => if c = '\n' then [] :: line :: lines else (c :: line) :: lines

/-- The lines with a newline between each two. -/
def join : List Text → Text
  | [] => []
  | [line] => line
  | line :: next :: lines => line ++ .char '\n' :: join (next :: lines)

/-- The lines with a newline after each. -/
def close : List Text → Text
  | [] => []
  | line :: lines => line ++ .char '\n' :: close lines

theorem split_ne_nil (text : Text) : split text ≠ [] := by
  cases text with
  | nil => simp [split]
  | cons c text =>
    unfold split
    split
    · simp
    · split <;> simp

/-- A text is its lines joined. -/
theorem join_split (text : Text) : join (split text) = text := by
  induction text with
  | nil => rfl
  | cons c text ih =>
    unfold split
    split
    · next h => exact absurd h (split_ne_nil text)
    · next line lines h =>
      rw [h] at ih
      by_cases hc : c = '\n'
      · simp [hc, join, ih]
      · rw [if_neg hc]
        cases lines <;> simp_all [join]

theorem split_newline (text : Text) : split (.char '\n' :: text) = [] :: split text := by
  obtain ⟨line, lines, h⟩ := List.exists_cons_of_ne_nil (split_ne_nil text)
  rw [split, h]
  exact if_pos rfl

theorem split_cons {c : CodePoint} {text line : Text} {lines : List Text}
    (other : c ≠ .char '\n') (h : split text = line :: lines) :
    split (c :: text) = (c :: line) :: lines := by
  rw [split, h]
  exact if_neg other

/-- A newline between two texts is a cut. -/
theorem split_append (text rest : Text) :
    split (text ++ .char '\n' :: rest) = split text ++ split rest := by
  induction text with
  | nil => exact split_newline rest
  | cons c text ih =>
    obtain ⟨line, lines, h⟩ := List.exists_cons_of_ne_nil (split_ne_nil text)
    rw [h, List.cons_append] at ih
    by_cases newline : c = .char '\n'
    · rw [newline, List.cons_append, split_newline, split_newline, ih, h]
      rfl
    · rw [List.cons_append, split_cons newline ih, split_cons newline h]
      rfl

/-- A text without newlines is one line. -/
theorem split_of_unbroken {text : Text} (h : CodePoint.char '\n' ∉ text) : split text = [text] := by
  induction text with
  | nil => rfl
  | cons c text ih =>
    rw [List.mem_cons, not_or] at h
    exact split_cons (Ne.symm h.1) (ih h.2)

theorem flatMap_split_of_unbroken {lines : List Text}
    (h : ∀ line ∈ lines, CodePoint.char '\n' ∉ line) : lines.flatMap split = lines := by
  induction lines with
  | nil => rfl
  | cons line lines ih =>
    obtain ⟨here, rest⟩ := List.forall_mem_cons.1 h
    rw [List.flatMap_cons, split_of_unbroken here, ih rest, List.singleton_append]

/-- Texts that are closed are cut one by one, and what follows them is cut apart from them. -/
theorem split_close_append (lines : List Text) (rest : Text) :
    split (close lines ++ rest) = lines.flatMap split ++ split rest := by
  induction lines with
  | nil => rfl
  | cons line lines ih =>
    rw [close, List.append_assoc, List.cons_append, split_append, ih, List.flatMap_cons,
      List.append_assoc]

/-- Texts that are closed are cut one by one, and an empty line remains. -/
theorem split_close (lines : List Text) : split (close lines) = lines.flatMap split ++ [[]] := by
  have cut := split_close_append lines []
  rwa [List.append_nil] at cut

/-- What stands in front of the first cut belongs to the first line. -/
theorem split_append_of_unbroken {front text line : Text} {lines : List Text}
    (unbroken : CodePoint.char '\n' ∉ front) (h : split text = line :: lines) :
    split (front ++ text) = (front ++ line) :: lines := by
  induction front with
  | nil => exact h
  | cons c front ih =>
    rw [List.mem_cons, not_or] at unbroken
    exact split_cons (Ne.symm unbroken.1) (ih unbroken.2)

theorem join_cons (line : Text) {lines : List Text} (h : lines ≠ []) :
    join (line :: lines) = line ++ .char '\n' :: join lines := by
  obtain ⟨next, more, rfl⟩ := List.exists_cons_of_ne_nil h
  rfl

theorem join_append (front : List Text) {lines : List Text} (h : lines ≠ []) :
    join (front ++ lines) = close front ++ join lines := by
  induction front with
  | nil => rfl
  | cons line front ih =>
    rw [List.cons_append, join_cons line (List.append_ne_nil_of_right_ne_nil front h), ih, close,
      List.append_assoc, List.cons_append]

/-- Closing lines is joining them and closing the last one. -/
theorem close_eq {lines : List Text} (h : lines ≠ []) :
    close lines = join lines ++ [.char '\n'] := by
  induction lines with
  | nil => exact absurd rfl h
  | cons line lines ih =>
    cases lines with
    | nil => rfl
    | cons next lines =>
      have later : next :: lines ≠ [] := List.cons_ne_nil next lines
      rw [close, ih later, join_cons line later, List.append_assoc, List.cons_append]

/-- Joining adds newlines and nothing else. -/
theorem count_join {c : CodePoint} (other : c ≠ .char '\n') (lines : List Text) :
    (join lines).count c = lines.flatten.count c := by
  fun_induction join lines with
  | case1 => rfl
  | case2 line => rw [List.flatten_singleton]
  | case3 line next lines ih =>
    rw [List.count_append, List.count_cons_of_ne (Ne.symm other), ih]
    exact List.count_append.symm

/-- Every text is some closed lines and a last one, none of which has a newline inside. -/
theorem exists_close (text : Text) : ∃ lines last, text = close lines ++ last ∧
    (∀ line ∈ lines, CodePoint.char '\n' ∉ line) ∧ CodePoint.char '\n' ∉ last := by
  induction text with
  | nil => exact ⟨[], [], rfl, by simp, by simp⟩
  | cons c text ih =>
    obtain ⟨lines, last, rfl, inside, unbroken⟩ := ih
    by_cases newline : c = .char '\n'
    · exact ⟨[] :: lines, last, by rw [newline]; rfl, by simpa using inside, unbroken⟩
    · cases lines with
      | nil => exact ⟨[], c :: last, rfl, by simp, by simp [Ne.symm newline, unbroken]⟩
      | cons line lines =>
        obtain ⟨first, others⟩ := List.forall_mem_cons.1 inside
        refine ⟨(c :: line) :: lines, last, rfl, ?_, unbroken⟩
        exact List.forall_mem_cons.2 ⟨by simp [Ne.symm newline, first], others⟩

/-- No line of a text has a newline inside. -/
theorem unbroken_of_mem_split {text line : Text} (mem : line ∈ split text) :
    CodePoint.char '\n' ∉ line := by
  obtain ⟨lines, last, rfl, inside, unbroken⟩ := exists_close text
  rw [split_close_append, flatMap_split_of_unbroken inside, split_of_unbroken unbroken] at mem
  rcases List.mem_append.1 mem with mem | mem
  · exact inside line mem
  · exact List.mem_singleton.1 mem ▸ unbroken

/-- Lines without newlines are cut where they were joined. -/
theorem split_join {lines : List Text} (h : ∀ line ∈ lines, CodePoint.char '\n' ∉ line)
    (some_line : lines ≠ []) : split (join lines) = lines := by
  obtain ⟨front, last, rfl⟩ := (List.eq_nil_or_concat lines).resolve_left some_line
  rw [List.concat_eq_append] at h ⊢
  have inside := List.forall_mem_append.1 h
  rw [join_append front (List.cons_ne_nil last []), split_close_append,
    flatMap_split_of_unbroken inside.1]
  exact congrArg (front ++ ·) (split_of_unbroken (inside.2 last List.mem_cons_self))

end TapeLang.Lines
