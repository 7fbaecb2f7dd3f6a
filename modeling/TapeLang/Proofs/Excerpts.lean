import TapeLang.Proofs.Faults
import Mathlib.Data.List.Basic

/-! Where the caret of a complaint stands.

An excerpt has one marked row, and the row below it holds a caret (`Excerpt.displays_make`). In
front of the line the marked row has a lead, as wide as the number of the line asks for
(`Excerpt.lead`), but the row of the caret makes up for nine characters, whatever the number is. So
the caret stands under the bracket that a complaint is about exactly if the number of its line has
up to four digits (`caretUnder_iff`). -/
namespace TapeLang

namespace Excerpt
variable {aim column number : Int}

/-! ### Single rows -/

/-- What stands in front of the line in a row. -/
def front (marked : Bool) (number : Int) : Text :=
  (if marked then "> " else "  ") ++ Numeral.alignRight 4 (Numeral.integer number) ++ " | "

/-- How much stands in front of the line in a row with a number. -/
def lead (number : Nat) : Nat := 5 + max 4 (Numeral.natural number).length

theorem row_eq (marked : Bool) (number : Int) (line : Text) :
    row marked number line = front marked number ++ line := rfl

theorem length_front (marked : Bool) (number : Nat) :
    (front marked number).length = lead number := by
  have mark : (Text.ofString (if marked then "> " else "  ")).length = 2 := by cases marked <;> rfl
  have bar : (Text.ofString " | ").length = 3 := rfl
  have digits : (Numeral.alignRight 4 (Numeral.integer number)).length =
      max 4 (Numeral.natural number).length := List.length_leftpad ..
  rw [front, List.length_append, List.length_append, mark, bar, digits, lead]
  omega

theorem unbroken_front (marked : Bool) (number : Int) :
    CodePoint.char '\n' ∉ front marked number := by
  have mark : CodePoint.char '\n' ∉ Text.ofString (if marked then "> " else "  ") := by
    cases marked <;> decide
  have digits : CodePoint.char '\n' ∉ Numeral.integer number :=
    fun mem => (Numeral.unbroken_integer number _ mem).1 rfl
  have padded : CodePoint.char '\n' ∉ Numeral.alignRight 4 (Numeral.integer number) := by
    simp [Numeral.alignRight, List.leftpad, digits]
  have bar : CodePoint.char '\n' ∉ Text.ofString " | " := by decide
  simp only [front, List.mem_append, not_or]
  exact ⟨⟨mark, padded⟩, bar⟩

theorem lead_eq_nine_iff (number : Nat) : lead number = 9 ↔ number < 10000 := by
  have digits : (Numeral.natural number).length ≤ 4 ↔ number < 10 ^ 4 := by
    rw [Numeral.natural, Text.ofChars, List.length_map]
    exact Nat.length_toDigits_le_iff (by decide) (by decide)
  rw [lead]
  omega

/-- Whether a row is marked. -/
def IsMarked (row : Text) : Prop := row.head? = some (.char '>')

/-- A row that is one line of the excerpt. -/
structure IsRow (marked : Bool) (row : Text) : Prop where
  unbroken : CodePoint.char '\n' ∉ row
  mark : IsMarked row ↔ marked = true

theorem IsRow.not_marked {row : Text} (h : IsRow false row) : ¬ IsMarked row :=
  fun marked => Bool.false_ne_true (h.mark.1 marked)

theorem isRow_row (marked : Bool) (number : Int) {line : Text} (h : CodePoint.char '\n' ∉ line) :
    IsRow marked (row marked number line) where
  unbroken := by
    rw [row_eq, List.mem_append, not_or]
    exact ⟨unbroken_front marked number, h⟩
  mark := by cases marked <;> simp [IsMarked, row, Text.ofString, Text.ofChars]

theorem caretRow_eq (column : Nat) :
    caretRow (column + 1) = List.replicate (9 + column) (.char ' ') ++ [.char '^'] := by
  have blanks : ((column : Int) + 1 - 1).toNat = column := by omega
  rw [caretRow, blanks, List.replicate_append_replicate]
  rfl

theorem isRow_caretRow (column : Nat) : IsRow false (caretRow (column + 1)) where
  unbroken := by simp [caretRow_eq]
  mark := by
    rw [caretRow_eq, Nat.add_comm]
    simp [IsMarked, List.replicate_succ]

/-! ### Rows of consecutive lines -/

theorem rows_append (first second : List Text) :
    rows aim column number (first ++ second) =
      rows aim column number first ++ rows aim column (number + first.length) second := by
  induction first generalizing number with
  | nil => simp [rows]
  | cons line first ih =>
    have next : number + 1 + (first.length : Int) = number + ((line :: first).length : Int) := by
      rw [List.length_cons]
      omega
    simp only [List.cons_append, rows, ih, next]
    split <;> rfl

/-- Lines other than the one that is aimed at have a row each, and none of these is marked. -/
theorem isRow_of_mem_rows {lines : List Text} (h : ∀ line ∈ lines, CodePoint.char '\n' ∉ line)
    (other : aim < number ∨ number + lines.length ≤ aim) :
    ∀ row ∈ rows aim column number lines, IsRow false row := by
  induction lines generalizing number with
  | nil => exact fun _ mem => nomatch mem
  | cons line lines ih =>
    rw [List.length_cons] at other
    obtain ⟨here, others⟩ := List.forall_mem_cons.1 h
    have following : ∀ row ∈ rows aim column (number + 1) lines, IsRow false row :=
      ih others (by omega)
    rw [rows, if_neg (by omega)]
    exact List.forall_mem_cons.2 ⟨isRow_row false number here, following⟩

/-! ### Excerpts -/

/-- An excerpt has one marked row. It is so many characters and then the line, and the row right
below it is so many blanks and a caret. -/
def Displays (excerpt line : Text) (lead blanks : Nat) : Prop :=
  ∃ above front below,
    Lines.split excerpt =
      above ++ (front ++ line) :: (List.replicate blanks (.char ' ') ++ [.char '^']) :: below ∧
    front.length = lead ∧ IsMarked (front ++ line) ∧
    ∀ row ∈ above ++ (List.replicate blanks (.char ' ') ++ [.char '^']) :: below, ¬ IsMarked row

/-- There is no other way to read an excerpt. -/
theorem Displays.unique {excerpt line : Text} {lead lead' blanks blanks' : Nat}
    (h : Displays excerpt line lead blanks) (h' : Displays excerpt line lead' blanks') :
    lead = lead' ∧ blanks = blanks' := by
  obtain ⟨above, front, below, cut, rfl, marked, others⟩ := h
  obtain ⟨above', front', below', cut', rfl, marked', others'⟩ := h'
  rw [cut] at cut'
  have apart : front' ++ line ∉ above ∧
      front' ++ line ∉ (List.replicate blanks (.char ' ') ++ [.char '^']) :: below :=
    ⟨fun mem => others _ (List.mem_append_left _ mem) marked',
      fun mem => others _ (List.mem_append_right _ mem) marked'⟩
  obtain ⟨-, same, behind⟩ := (List.append_cons_inj_of_notMem apart.1 apart.2).1 cut'
  have lengths := congrArg List.length (List.cons.inj behind).1
  simp only [List.length_append, List.length_replicate, List.length_singleton] at lengths
  exact ⟨congrArg List.length (List.append_cancel_right same), by omega⟩

theorem target_eq (number : Nat) (column : Int) : target ⟨number + 1, column⟩ = number + 1 := by
  show max 1 ((number : Int) + 1) = _
  omega

/-- The lines that are shown are the line of the place and some of those before and after it. -/
theorem shown_eq {lines before after : List Text} {line : Text} (column : Int) {around : Int}
    (cut : lines = before ++ line :: after) (some_lines : 0 ≤ around) :
    let place : Position := ⟨before.length + 1, column⟩
    ∃ near far,
      (lines.drop (first place around - 1).toNat).take
          (last lines place around - first place around + 1).toNat = near ++ line :: far ∧
        near ⊆ before ∧ far ⊆ after ∧ first place around + near.length = before.length + 1 := by
  intro place
  have at_line : target place = before.length + 1 := target_eq before.length column
  have length : lines.length = before.length + (after.length + 1) := by
    rw [cut, List.length_append, List.length_cons]
  have starts : 1 ≤ first place around ∧ first place around ≤ before.length + 1 := by
    rw [first, at_line]
    exact ⟨Int.le_max_left _ _, Int.max_le.2 ⟨by omega, by omega⟩⟩
  have stops : (before.length : Int) + 1 ≤ last lines place around := by
    rw [last, at_line]
    exact Int.le_min.2 ⟨by omega, by omega⟩
  generalize first place around = start at *
  generalize last lines place around = stop at *
  have inside : (start - 1).toNat ≤ before.length := by omega
  obtain ⟨extra, more⟩ : ∃ extra, (stop - start + 1).toNat =
      (before.drop (start - 1).toNat).length + (extra + 1) :=
    ⟨(stop - (before.length + 1)).toNat, by rw [List.length_drop]; omega⟩
  refine ⟨before.drop (start - 1).toNat, after.take extra, ?_, List.drop_subset _ _,
    List.take_subset _ _, by rw [List.length_drop]; omega⟩
  rw [more, cut, List.drop_append_of_le_length inside, List.take_length_add_append,
    List.take_succ_cons]

/-- **The excerpt at a place displays the line of the place.** -/
theorem displays_make {lines before after : List Text} {line : Text} {column : Nat} {around : Int}
    (unbroken : ∀ line ∈ lines, CodePoint.char '\n' ∉ line) (cut : lines = before ++ line :: after)
    (some_lines : 0 ≤ around) :
    Displays (make lines ⟨before.length + 1, column + 1⟩ around) line (lead (before.length + 1))
      (9 + column) := by
  obtain ⟨near, far, shown, nearBefore, farAfter, here⟩ :=
    shown_eq (column + 1) cut some_lines
  have at_line := target_eq before.length (column + 1)
  generalize hstart : first ⟨before.length + 1, column + 1⟩ around = start at shown here
  generalize habove : rows (before.length + 1) (column + 1) start near = above
  generalize hbelow : rows (before.length + 1) (column + 1) (before.length + 1 + 1) far = below
  rw [cut] at unbroken
  simp only [List.forall_mem_append, List.forall_mem_cons] at unbroken
  obtain ⟨unbrokenBefore, unbrokenLine, unbrokenAfter⟩ := unbroken
  have rowsAbove : ∀ row ∈ above, IsRow false row := habove ▸
    isRow_of_mem_rows (fun line mem => unbrokenBefore line (nearBefore mem))
      (.inr (Int.le_of_eq here))
  have rowsBelow : ∀ row ∈ below, IsRow false row := hbelow ▸
    isRow_of_mem_rows (fun line mem => unbrokenAfter line (farAfter mem)) (.inl (by omega))
  have marked := isRow_row true (before.length + 1) unbrokenLine
  have caret := isRow_caretRow column
  have all : make lines ⟨before.length + 1, column + 1⟩ around = Lines.join
      (above ++ row true (before.length + 1) line :: caretRow (column + 1) :: below) := by
    simp only [make, hstart, shown, at_line, rows_append, here, rows, if_true, habove, hbelow]
  refine ⟨above, front true (before.length + 1), below, ?_, length_front true (before.length + 1),
    marked.mark.2 rfl, ?_⟩
  · rw [all, Lines.split_join _ (by simp), caretRow_eq, row_eq]
    simp only [List.forall_mem_append, List.forall_mem_cons]
    exact ⟨fun row mem => (rowsAbove row mem).unbroken, marked.unbroken, caret.unbroken,
      fun row mem => (rowsBelow row mem).unbroken⟩
  · rw [← caretRow_eq]
    simp only [List.forall_mem_append, List.forall_mem_cons]
    exact ⟨fun row mem => (rowsAbove row mem).not_marked, caret.not_marked,
      fun row mem => (rowsBelow row mem).not_marked⟩

end Excerpt

/-! ### Carets of complaints -/

/-- In the excerpt of a complaint the caret stands under the bracket at fault: the marked row ends
with the line of the text that holds the bracket, and in front of the caret in the row below it
there are as many blanks as there are characters in front of the bracket in the marked row. -/
def Complaint.CaretUnder (c : Complaint) (s : Text) (f : BracketFault) : Prop :=
  ∃ before line, ∃ column lead : Nat, Lines.Locates s f.offset f.bracket before line column ∧
    Excerpt.Displays c.excerpt line lead (lead + column)

section
variable {s line : Text} {f : BracketFault} {before : List Text} {column : Nat}
  (fault : Program.read s = .error f)
include fault

/-- The excerpt of a complaint displays the line that holds the bracket. -/
theorem displays_complaint (at_bracket : Lines.Locates s f.offset f.bracket before line column) :
    (f.complaint s).place = ⟨before.length + 1, column + 1⟩ ∧
      Excerpt.Displays (f.complaint s).excerpt line (Excerpt.lead (before.length + 1))
        (9 + column) := by
  obtain ⟨after, cut⟩ := at_bracket.cut
  have place := (shows_bracket_iff fault _).1 ⟨before, line, column, at_bracket, rfl⟩
  have excerpt : (f.complaint s).excerpt =
      Excerpt.make (Lines.split s) (f.complaint s).place Complaint.around := rfl
  rw [excerpt, ← place]
  exact ⟨rfl, Excerpt.displays_make (fun _ => Lines.unbroken_of_mem_split) cut (by decide)⟩

/-- **The caret stands under the bracket exactly on lines with numbers of up to four digits.** -/
theorem caretUnder_iff :
    (f.complaint s).CaretUnder s f ↔ (f.complaint s).place.line < 10000 := by
  constructor
  · intro under
    obtain ⟨before, line, column, lead, at_bracket, displays⟩ := under
    obtain ⟨place, displays'⟩ := displays_complaint fault at_bracket
    obtain ⟨rfl, blanks⟩ := displays.unique displays'
    have low := (Excerpt.lead_eq_nine_iff (before.length + 1)).1 (by omega)
    rw [place]
    exact Int.ofNat_lt.2 low
  · intro low
    obtain ⟨before, line, column, at_bracket, -⟩ := (shows_bracket_iff fault _).2 rfl
    obtain ⟨place, displays⟩ := displays_complaint fault at_bracket
    rw [place] at low
    have nine := (Excerpt.lead_eq_nine_iff (before.length + 1)).2 (Int.ofNat_lt.1 low)
    rw [nine] at displays
    exact ⟨before, line, column, 9, at_bracket, displays⟩

end

/-- **What a complaint shows of its bracket.** A text that cannot be parsed is complained about with
an excerpt that has one marked row; it ends with the line of the text that holds the bracket at
fault, and right below it there is a row of blanks with a caret. The bracket stands in the marked
row behind the lead and the characters before it in its line, the caret behind nine blanks and one
more for each of those characters. So the caret stands under the bracket exactly if the number of
the line is below ten thousand. -/
theorem caret_of_complaint {s : Text} {e : Error} (h : Program.parse s = .error e) :
    ∃ c f before line, ∃ column : Nat, e = .source c ∧ Program.read s = .error f ∧
      Lines.Locates s f.offset f.bracket before line column ∧
      Excerpt.Displays c.excerpt line (Excerpt.lead (before.length + 1)) (9 + column) ∧
      (c.CaretUnder s f ↔ before.length + 1 < 10000) := by
  obtain ⟨f, fault, rfl⟩ := read_of_parse h
  obtain ⟨before, line, column, at_bracket, -⟩ := (shows_bracket_iff fault _).2 rfl
  obtain ⟨place, displays⟩ := displays_complaint fault at_bracket
  refine ⟨_, f, before, line, column, rfl, fault, at_bracket, displays, ?_⟩
  rw [caretUnder_iff fault, place]
  exact Int.ofNat_lt

/-- Behind a tab and a blank on the second line. -/
theorem caret_of_complaint_indented :
    ∃ c f, Program.parse "+[\n\t ]]" = .error (.source c) ∧
      Program.read "+[\n\t ]]" = .error f ∧ c.CaretUnder "+[\n\t ]]" f := by
  obtain ⟨c, f, before, line, column, same, fault, at_bracket, -, under⟩ := caret_of_complaint
    (s := "+[\n\t ]]") (e := .source (BracketFault.complaint _ (.unmatched 6))) rfl
  cases same
  have place := (displays_complaint fault at_bracket).1
  cases fault
  have second := congrArg Position.line place
  have second : (2 : Int) = before.length + 1 := second
  exact ⟨_, _, rfl, rfl, under.2 (by omega)⟩

/-- A closing bracket below some empty lines. -/
def Text.belowLines (number : Nat) : Text := .replicate number (.char '\n') ++ [.char ']']

theorem Program.acceptAll_newlines (r : Reader) (offset number : Nat) (rest : Text) :
    r.acceptAll offset (.replicate number (.char '\n') ++ rest) =
      r.acceptAll (offset + number) rest := by
  induction number generalizing offset with
  | zero => rfl
  | succ number ih =>
    have next := ih (offset + 1)
    rw [Nat.add_assoc, Nat.add_comm 1] at next
    exact next

theorem Program.read_belowLines (number : Nat) :
    read (Text.belowLines number) = .error (.unmatched number) := by
  rw [read, Text.belowLines, acceptAll_newlines, Nat.zero_add]
  rfl

theorem locates_belowLines (number : Nat) :
    Lines.Locates (Text.belowLines number) number ']' (.replicate number []) "]" 0 where
  cut := by
    refine ⟨[], ?_⟩
    induction number with
    | zero => rfl
    | succ number ih =>
      rw [List.replicate_succ, List.cons_append, ← ih]
      exact Lines.split_newline _
  here := rfl
  offset_eq := by
    induction number with
    | zero => rfl
    | succ number ih =>
      rw [List.replicate_succ, Lines.extent, List.length_nil]
      omega

/-- **Below line 9999 the caret stands beside the bracket.** The bracket is the eleventh character
of its row and the caret the tenth of the next one. -/
theorem caret_beside_bracket :
    ∃ c, Program.parse (Text.belowLines 9999) = .error (.source c) ∧
      Program.read (Text.belowLines 9999) = .error (.unmatched 9999) ∧
      Excerpt.Displays c.excerpt "]" 10 9 ∧
      ¬ c.CaretUnder (Text.belowLines 9999) (.unmatched 9999) := by
  have fault := Program.read_belowLines 9999
  obtain ⟨place, displays⟩ := displays_complaint fault (locates_belowLines 9999)
  have parsed : Program.parse (Text.belowLines 9999) =
      .error (.source (BracketFault.complaint (Text.belowLines 9999) (.unmatched 9999))) := by
    rw [Program.parse, fault]
  rw [List.length_replicate] at displays place
  refine ⟨_, parsed, fault, displays, ?_⟩
  rw [caretUnder_iff fault, place]
  decide

end TapeLang
