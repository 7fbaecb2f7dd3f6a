import Mathlib.Data.List.Nodup
import TapeLang.Proofs.Window
import TapeLang.Text.Numeral.Reading

/-! A dump shows the whole tape.

The rows of a dump are the cells of the window cut into pieces: nothing is lost and nothing stands
twice (`flatten_pieces`), and all rows but the last are full. A row shows the address of its first
cell and then every byte in three digits (`ShowsRow`), so it can be read without knowing where the
cursor is or how wide a row may be: the label ends at the first colon, and a cell takes five places
(`ShowsRow.bytes_eq`). The brackets are around the cell at the cursor and nowhere else
(`ShowsRow.count`), and the last line settles the cursor and the origin offset
(`eq_of_lastLine_eq`). So two tapes with the same dump are the same tape (`dump_shows_tape`). -/
namespace TapeLang.Tape

/-! ### Pieces of a list -/

section Pieces
variable {α : Type} {width : Nat}

theorem pieces_nil : pieces width ([] : List α) = [] := by
  rw [pieces, if_pos (.inr rfl)]

theorem flatten_pieces (positive : 0 < width) (l : List α) : (pieces width l).flatten = l := by
  fun_induction pieces width l with
  | case1 l stop =>
    rcases stop with narrow | empty
    · omega
    · exact (List.eq_nil_of_length_eq_zero empty).symm
  | case2 l more ih => rw [List.flatten_cons, ih, List.take_append_drop]

theorem ne_nil_of_mem_pieces (l : List α) : ∀ piece ∈ pieces width l, piece ≠ [] := by
  fun_induction pieces width l with
  | case1 => exact List.forall_mem_nil _
  | case2 l more ih =>
    refine List.forall_mem_cons.2 ⟨?_, ih⟩
    rw [← List.length_pos_iff, List.length_take]
    omega

theorem length_le_of_mem_pieces (l : List α) : ∀ piece ∈ pieces width l, piece.length ≤ width := by
  fun_induction pieces width l with
  | case1 => exact List.forall_mem_nil _
  | case2 l more ih => exact List.forall_mem_cons.2 ⟨List.length_take_le width l, ih⟩

/-- Only the last piece may be shorter. -/
theorem length_of_mem_dropLast_pieces (l : List α) :
    ∀ piece ∈ (pieces width l).dropLast, piece.length = width := by
  fun_induction pieces width l with
  | case1 => exact List.forall_mem_nil _
  | case2 l more ih =>
    cases later : pieces width (l.drop width) with
    | nil => exact List.forall_mem_nil _
    | cons next others =>
      rw [later] at ih
      refine List.forall_mem_cons.2 ⟨?_, ih⟩
      -- Something is left behind the piece, so the piece is full.
      have left : l.drop width ≠ [] := by
        intro nothing
        rw [nothing, pieces_nil] at later
        cases later
      have := List.length_pos_iff.2 left
      rw [List.length_drop] at this
      rw [List.length_take]
      omega

end Pieces

/-! ### Cells -/

/-- The text of a cell: three digits for its byte, between brackets where the cursor stands and
between blanks elsewhere. -/
def ShowsCell (cursor : Int) (cell : Int × UInt8) (shown : Text) : Prop :=
  ∃ digits, digits.length = 3 ∧ (∀ c ∈ digits, c.isDigit = true) ∧
    Numeral.natural? digits = some cell.2.toNat ∧
    shown = if cell.1 = cursor then "[" ++ digits ++ "]" else " " ++ digits ++ " "

/-- The marks around the cell at the cursor. -/
def brackets : List CodePoint := [.char '[', .char ']']

variable {cursor cursor' : Int} {cell cell' : Int × UInt8} {row row' : List (Int × UInt8)}
  {shown line : Text} {bracket : CodePoint}

theorem showsCell_dumpCell (cursor : Int) (cell : Int × UInt8) :
    ShowsCell cursor cell (dumpCell cursor cell) := by
  refine ⟨(Numeral.natural cell.2.toNat).leftpad 3 '0', ?_, Numeral.isDigit_of_mem_leftpad,
    Numeral.natural?_leftpad 3 _, rfl⟩
  have small : cell.2.toNat < 10 ^ 3 := Nat.lt_trans cell.2.toNat_lt (by decide)
  have short : (Nat.toDigits 10 cell.2.toNat).length ≤ 3 :=
    (Nat.length_toDigits_le_iff (by decide) (by decide)).2 small
  rw [List.length_leftpad, Numeral.natural, Text.ofChars, List.length_map]
  omega

theorem ShowsCell.eq_cons (shows : ShowsCell cursor cell shown) :
    ∃ opening digits closing, shown = opening :: digits ++ [closing] ∧ digits.length = 3 ∧
      Numeral.natural? digits = some cell.2.toNat := by
  obtain ⟨digits, three, -, value, rfl⟩ := shows
  by_cases here : cell.1 = cursor
  · exact ⟨_, digits, _, if_pos here, three, value⟩
  · exact ⟨_, digits, _, if_neg here, three, value⟩

theorem ShowsCell.length (shows : ShowsCell cursor cell shown) : shown.length = 5 := by
  obtain ⟨opening, digits, closing, rfl, three, -⟩ := shows.eq_cons
  simp [three]

theorem ShowsCell.byte_eq (shows : ShowsCell cursor cell shown)
    (shows' : ShowsCell cursor' cell' shown) : cell.2 = cell'.2 := by
  obtain ⟨opening, digits, closing, rfl, three, value⟩ := shows.eq_cons
  obtain ⟨opening', digits', closing', same, three', value'⟩ := shows'.eq_cons
  have inner := (List.append_inj' (List.cons.inj same).2 rfl).1
  rw [inner, value', Option.some.injEq] at value
  exact UInt8.toNat_inj.1 value.symm

/-- Neither bracket can stand in a number. -/
theorem not_isFigure_of_mem_brackets : ∀ b ∈ brackets, Numeral.isFigure b = false := by decide

theorem count_eq_zero_of_isFigure {text : Text} (figures : ∀ c ∈ text, Numeral.isFigure c = true)
    (mem : bracket ∈ brackets) : text.count bracket = 0 :=
  List.count_eq_zero.2
    (Numeral.not_mem_of_isFigure figures (not_isFigure_of_mem_brackets bracket mem))

theorem ShowsCell.count (shows : ShowsCell cursor cell shown) (mem : bracket ∈ brackets) :
    shown.count bracket = if cell.1 = cursor then 1 else 0 := by
  obtain ⟨digits, -, figures, -, rfl⟩ := shows
  have inside : digits.count bracket = 0 :=
    count_eq_zero_of_isFigure (fun c digit => Numeral.isFigure_of_isDigit (figures c digit)) mem
  have marked : ∀ b ∈ brackets, (Text.ofString "[").count b + (Text.ofString "]").count b = 1 := by
    decide
  have unmarked : ∀ b ∈ brackets, (Text.ofString " ").count b = 0 := by decide
  split
  · rw [List.count_append, List.count_append, inside, Nat.add_zero, marked bracket mem]
  · rw [List.count_append, List.count_append, inside, unmarked bracket mem]

theorem ShowsCell.unbroken (shows : ShowsCell cursor cell shown) :
    CodePoint.char '\n' ∉ shown := by
  obtain ⟨digits, -, figures, -, rfl⟩ := shows
  have inside : CodePoint.char '\n' ∉ digits := fun mem => absurd (figures _ mem) (by decide)
  have marks : ∀ mark ∈ ["[", "]", " "].map Text.ofString, CodePoint.char '\n' ∉ mark := by decide
  simp only [List.map_cons, List.map_nil, List.forall_mem_cons] at marks
  obtain ⟨opening, closing, blank, -⟩ := marks
  split <;> simp only [List.mem_append, not_or]
  · exact ⟨⟨opening, inside⟩, closing⟩
  · exact ⟨⟨blank, inside⟩, blank⟩

/-! ### Rows -/

/-- The line of a row: the address of the first cell in at least six places, and then the cells. -/
def ShowsRow (cursor : Int) (row : List (Int × UInt8)) (line : Text) : Prop :=
  ∃ first ∈ row.head?, ∃ cells,
    line = Numeral.alignRight 6 (Numeral.signed first.1) ++ ": " ++ cells.flatten ∧
    List.Forall₂ (ShowsCell cursor) row cells

theorem showsRow_dumpRow (cursor : Int) (nonempty : row ≠ []) :
    ShowsRow cursor row (dumpRow cursor row) := by
  cases row with
  | nil => exact absurd rfl nonempty
  | cons first others =>
    refine ⟨first, rfl, (first :: others).map (dumpCell cursor), ?_, ?_⟩
    · rw [dumpRow, List.flatMap_def]
    · exact List.forall₂_map_right_iff.2
        (List.forall₂_same.2 fun cell _ => showsCell_dumpCell cursor cell)

/-- A label is made of blanks and of the text of a number. -/
theorem not_mem_label {c : CodePoint} (other : Numeral.isFigure c = false) (visible : c ≠ .char ' ')
    (n : Int) : c ∉ Numeral.alignRight 6 (Numeral.signed n) := by
  rw [Numeral.alignRight, List.leftpad, List.mem_append, not_or]
  exact ⟨fun blank => visible (List.eq_of_mem_replicate blank),
    Numeral.not_mem_of_isFigure Numeral.isFigure_of_mem_signed other⟩

theorem length_flatten_cells {cells : List Text}
    (shows : List.Forall₂ (ShowsCell cursor) row cells) :
    cells.flatten.length = 5 * row.length := by
  induction shows with
  | nil => rfl
  | cons here _ ih =>
    rw [List.flatten_cons, List.length_append, here.length, ih, List.length_cons]
    omega

theorem bytes_eq_of_cells {cells cells' : List Text}
    (shows : List.Forall₂ (ShowsCell cursor) row cells)
    (shows' : List.Forall₂ (ShowsCell cursor') row' cells')
    (same : cells.flatten = cells'.flatten) : row.map (·.2) = row'.map (·.2) := by
  have places : row.length = row'.length := by
    have := congrArg List.length same
    rw [length_flatten_cells shows, length_flatten_cells shows'] at this
    omega
  induction shows generalizing row' cells' with
  | nil => rw [List.eq_nil_of_length_eq_zero places.symm]
  | cons here _ ih =>
    cases shows' with
    | nil => cases places
    | cons here' later' =>
      obtain ⟨head, tail⟩ := List.append_inj same (here.length.trans here'.length.symm)
      rw [List.map_cons, List.map_cons, here.byte_eq (head ▸ here'),
        ih later' tail (Nat.succ.inj places)]

/-- **A line shows one row of bytes**, wherever the cursors stand. -/
theorem ShowsRow.bytes_eq (shows : ShowsRow cursor row line) (shows' : ShowsRow cursor' row' line) :
    row.map (·.2) = row'.map (·.2) := by
  obtain ⟨first, -, cells, rfl, inside⟩ := shows
  obtain ⟨first', -, cells', same, inside'⟩ := shows'
  have unlabelled (n : Int) : CodePoint.char ':' ∉ Numeral.alignRight 6 (Numeral.signed n) :=
    not_mem_label rfl (by decide) n
  rw [List.append_assoc, List.append_assoc] at same
  have behind := (Text.eq_of_cut (unlabelled _) (unlabelled _) same).2
  exact bytes_eq_of_cells inside inside' (List.cons.inj behind).2

theorem ShowsRow.count (shows : ShowsRow cursor row line) (mem : bracket ∈ brackets) :
    line.count bracket = (row.map (·.1)).count cursor := by
  obtain ⟨first, -, cells, rfl, inside⟩ := shows
  have label : (Numeral.alignRight 6 (Numeral.signed first.1)).count bracket = 0 :=
    List.count_eq_zero.2 (not_mem_label (not_isFigure_of_mem_brackets bracket mem)
      (by rintro rfl; exact absurd mem (by decide)) _)
  have colon : ∀ b ∈ brackets, (Text.ofString ": ").count b = 0 := by decide
  rw [List.count_append, List.count_append, label, colon bracket mem, Nat.zero_add]
  clear label
  induction inside with
  | nil => rfl
  | cons here _ ih =>
    rw [List.flatten_cons, List.count_append, here.count mem, ih, List.map_cons, List.count_cons]
    simp only [beq_iff_eq, Nat.add_comm]

theorem ShowsRow.unbroken (shows : ShowsRow cursor row line) : CodePoint.char '\n' ∉ line := by
  obtain ⟨first, -, cells, rfl, inside⟩ := shows
  have colon : CodePoint.char '\n' ∉ Text.ofString ": " := by decide
  rw [List.mem_append, List.mem_append, not_or, not_or]
  refine ⟨⟨not_mem_label rfl (by decide) _, colon⟩, ?_⟩
  clear colon
  induction inside with
  | nil => exact List.not_mem_nil
  | cons here _ ih =>
    rw [List.flatten_cons, List.mem_append, not_or]
    exact ⟨here.unbroken, ih⟩

/-! ### Several rows -/

variable {rows rows' : List (List (Int × UInt8))} {lines : List Text}

theorem bytes_eq_of_lines (shows : List.Forall₂ (ShowsRow cursor) rows lines)
    (shows' : List.Forall₂ (ShowsRow cursor') rows' lines) :
    rows.flatten.map (·.2) = rows'.flatten.map (·.2) := by
  induction shows generalizing rows' with
  | nil => cases shows'; rfl
  | cons here _ ih =>
    cases shows' with
    | cons here' later' =>
      rw [List.flatten_cons, List.flatten_cons, List.map_append, List.map_append,
        here.bytes_eq here', ih later']

theorem count_lines (shows : List.Forall₂ (ShowsRow cursor) rows lines) (mem : bracket ∈ brackets) :
    lines.flatten.count bracket = (rows.flatten.map (·.1)).count cursor := by
  induction shows with
  | nil => rfl
  | cons here _ ih =>
    rw [List.flatten_cons, List.flatten_cons, List.map_append, List.count_append, List.count_append,
      here.count mem, ih]

/-! ### The last line -/

/-- The line below the rows, which is all of the dump of an empty tape. -/
def lastLine (t : Tape) : Text :=
  if t.size = 0 then "<empty tape, cursor=" ++ Numeral.integer t.cursor ++ ">"
  else t.dumpSummary (-t.originOffset) (t.size - t.originOffset - 1)

/-- It shows no cell and is a single line. -/
theorem not_mem_lastLine (t : Tape) {c : CodePoint} (mem : c ∈ CodePoint.char '\n' :: brackets) :
    c ∉ t.lastLine := by
  have number (n : Int) : c ∉ Numeral.integer n := by
    have others : ∀ c ∈ CodePoint.char '\n' :: brackets, Numeral.isFigure c = false := by decide
    exact Numeral.not_mem_of_isFigure Numeral.isFigure_of_mem_integer (others c mem)
  have fixed : ∀ c ∈ CodePoint.char '\n' :: brackets, ∀ part ∈ ["<empty tape, cursor=", ">",
      "cursor=", " span=", "..", " origin_offset="].map Text.ofString, c ∉ part := by decide
  have parts := fixed c mem
  simp only [List.map_cons, List.map_nil, List.forall_mem_cons] at parts
  obtain ⟨empty, close, cursor, span, dots, offset, -⟩ := parts
  unfold lastLine dumpSummary
  split <;> simp only [List.mem_append, not_or]
  · exact ⟨⟨empty, number _⟩, close⟩
  · exact ⟨⟨⟨⟨⟨⟨⟨cursor, number _⟩, span⟩, number _⟩, dots⟩, number _⟩, offset⟩, number _⟩

variable {t t' : Tape}

/-- **The last line settles where the cursor and the window stand.** -/
theorem eq_of_lastLine_eq (same : t.lastLine = t'.lastLine) :
    t.cursor = t'.cursor ∧ (t.size = 0 ↔ t'.size = 0) ∧
      (t.size ≠ 0 → t.originOffset = t'.originOffset) := by
  have head (t : Tape) : t.lastLine.head? = some (if t.size = 0 then .char '<' else .char 'c') := by
    unfold lastLine
    split <;> rfl
  have heads := (head t).symm.trans ((congrArg List.head? same).trans (head t'))
  unfold lastLine dumpSummary at same
  split_ifs at same heads with empty empty' empty'
  · rw [List.append_assoc, List.append_assoc] at same
    have cursors := Numeral.eq_of_integer_append rfl (List.append_cancel_left same)
    exact ⟨cursors.1, iff_of_true empty empty', fun stored => absurd empty stored⟩
  · exact absurd heads (by decide)
  · exact absurd heads (by decide)
  · simp only [List.append_assoc] at same
    obtain ⟨cursors, behind⟩ := Numeral.eq_of_integer_append rfl (List.append_cancel_left same)
    have span := List.append_cancel_left (show Text.ofString "span=" ++ _ = _ ++ _ from behind)
    have lows : -t.originOffset = -t'.originOffset := (Numeral.eq_of_integer_append rfl span).1
    exact ⟨cursors, iff_of_false empty empty', fun _ => Int.neg_inj.1 lows⟩

/-! ### The whole dump -/

theorem map_byte_numbered (start : Int) (values : List UInt8) :
    (numbered start values).map (·.2) = values := by
  induction values generalizing start with
  | nil => rfl
  | cons value values ih => rw [numbered, List.map_cons, ih]

theorem nodup_addresses (ends : Option (Int × Int)) : (addresses ends).Nodup := by
  cases ends with
  | none => exact List.nodup_nil
  | some ends =>
    exact List.nodup_range.map fun i j same => Int.ofNat_inj.1 (Int.add_left_cancel same)

/-- A text shows the cells of a tape in some rows and its last line below them: every cell of the
window once, in ascending order of their addresses, in rows of which only the last may be shorter
than the width, and with brackets around the cell at the cursor alone. -/
structure Depicts (t : Tape) (width : Nat) (rows : List (List (Int × UInt8))) (text : Text) :
    Prop where
  lines : ∃ shown, Lines.split text = shown ++ [t.lastLine] ∧
    List.Forall₂ (ShowsRow t.cursor) rows shown
  cells : rows.flatten = (addresses t.span?).map fun address => (address, t.peek address)
  full : ∀ row ∈ rows.dropLast, row.length = width
  narrow : ∀ row ∈ rows, row.length ≤ width
  marked : ∀ b ∈ brackets, text.count b = if t.cursor ∈ addresses t.span? then 1 else 0

theorem dump?_eq {width : Int} (wide : 1 ≤ width) (t : Tape) :
    t.dump? width = some
      (Lines.join ((pieces width.toNat t.entries).map (dumpRow t.cursor) ++ [t.lastLine])) := by
  unfold dump? span? lastLine
  by_cases empty : t.size = 0
  · have nothing : t.entries = [] := by
      rw [entries, Array.eq_empty_of_size_eq_zero empty]
      rfl
    rw [if_pos empty, if_pos empty, nothing, pieces_nil]
    rfl
  · simp only [if_neg empty, if_neg (show width ≠ 0 by omega)]

theorem depicts_dump {width : Nat} (positive : 0 < width) (t : Tape) :
    Depicts t width (pieces width t.entries)
      (Lines.join ((pieces width t.entries).map (dumpRow t.cursor) ++ [t.lastLine])) := by
  have shows : List.Forall₂ (ShowsRow t.cursor) (pieces width t.entries)
      ((pieces width t.entries).map (dumpRow t.cursor)) :=
    List.forall₂_map_right_iff.2 (List.forall₂_same.2 fun row mem =>
      showsRow_dumpRow t.cursor (ne_nil_of_mem_pieces t.entries row mem))
  have unbroken : ∀ line ∈ (pieces width t.entries).map (dumpRow t.cursor) ++ [t.lastLine],
      CodePoint.char '\n' ∉ line := by
    refine List.forall_mem_append.2 ⟨?_, ?_⟩
    · intro line mem
      obtain ⟨row, piece, rfl⟩ := List.mem_map.1 mem
      exact (showsRow_dumpRow t.cursor (ne_nil_of_mem_pieces t.entries row piece)).unbroken
    · exact List.forall_mem_singleton.2 (t.not_mem_lastLine (.head _))
  have cells := flatten_pieces positive t.entries
  refine ⟨⟨_, Lines.split_join unbroken (by simp), shows⟩, cells.trans t.entries_eq,
    length_of_mem_dropLast_pieces t.entries, length_le_of_mem_pieces t.entries, fun b mem => ?_⟩
  have visible : ∀ b ∈ brackets, b ≠ CodePoint.char '\n' := by decide
  rw [Lines.count_join (visible b mem), List.flatten_concat, List.count_append,
    count_lines shows mem, cells, t.entries_eq, List.map_map,
    List.count_eq_zero.2 (t.not_mem_lastLine (.tail _ mem)), Nat.add_zero]
  show ((addresses t.span?).map id).count t.cursor = _
  rw [List.map_id, (nodup_addresses t.span?).count]

/-- The same dump shows the same bytes in the same window, as far as there is one. -/
theorem eq_of_dump_eq {width : Int} (wide : 1 ≤ width) (same : t'.dump? width = t.dump? width)
    (anchored : t.size = 0 → t.originOffset = 0) (anchored' : t'.size = 0 → t'.originOffset = 0) :
    t' = t := by
  have positive : 0 < width.toNat := by omega
  rw [dump?_eq wide, dump?_eq wide, Option.some.injEq] at same
  obtain ⟨shown, split, rows⟩ := (t.depicts_dump positive).lines
  obtain ⟨shown', split', rows'⟩ := (t'.depicts_dump positive).lines
  rw [same, split] at split'
  obtain ⟨rfl, last⟩ := List.append_inj' split' rfl
  have bytes := bytes_eq_of_lines rows' rows
  rw [flatten_pieces positive, flatten_pieces positive, entries, entries, map_byte_numbered,
    map_byte_numbered] at bytes
  obtain ⟨cursors, empties, offsets⟩ := eq_of_lastLine_eq (List.cons.inj last).1
  have offset : t'.originOffset = t.originOffset := by
    by_cases empty : t.size = 0
    · rw [anchored empty, anchored' (empties.1 empty)]
    · exact (offsets empty).symm
  cases t
  cases t'
  simp only [mk.injEq]
  exact ⟨Array.toList_inj.1 bytes, offset, cursors.symm⟩

/-- A window without cells is at address zero. -/
theorem Encloses.originOffset_of_empty {accessed : List Int} (encloses : Encloses t accessed)
    (empty : t.size = 0) : t.originOffset = 0 := by
  have left := ((encloses.originOffset_le t.originOffset).1 le_rfl).1
  have right := ((encloses.endAddress_le t.endAddress).1 le_rfl).1
  rw [endAddress] at right
  omega

/-- **A dump shows the whole tape.** After any actions on a fresh tape, there is a dump in rows of
any width, and it depicts the tape; and no other tape that actions lead to has the same dump. -/
theorem dump_shows_tape {width : Int} (wide : 1 ≤ width) (actions : List Action) :
    let t := empty.performAll actions
    ∃ text, t.dump? width = some text ∧ (∃ rows, Depicts t width.toNat rows text) ∧
      ∀ others, (empty.performAll others).dump? width = some text →
        empty.performAll others = t := by
  intro t
  have anchored (actions : List Action) :
      (empty.performAll actions).size = 0 → (empty.performAll actions).originOffset = 0 :=
    (encloses_performAll keeps_start encloses_start actions).originOffset_of_empty
  have drawn := dump?_eq wide t
  refine ⟨_, drawn, ⟨_, t.depicts_dump (by omega)⟩, fun others same => ?_⟩
  exact eq_of_dump_eq wide (same.trans drawn.symm) (anchored actions) (anchored others)

/-- Two rows of two cells and one of a single cell, with the cursor in the first row. -/
theorem dump_shows_tape_partial :
    (1 : Int) ≤ 2 ∧ ∃ text,
      (empty.performAll [.write 7, .retreat 2, .decrement, .reach 2, .advance 1]).dump? 2 =
        some text ∧
      (∃ rows : List (List (Int × UInt8)),
        rows.flatten = [(-2, 255), (-1, 0), (0, 7), (1, 0), (2, 0)] ∧
        ∀ row ∈ rows.dropLast, row.length = 2) ∧
      text.count (.char '[') = 1 ∧
      ∀ others, (empty.performAll others).dump? 2 = some text →
        (empty.performAll others).cursor = -1 := by
  obtain ⟨text, drawn, ⟨rows, depicted⟩, unique⟩ := @dump_shows_tape 2 (by decide)
    [.write 7, .retreat 2, .decrement, .reach 2, .advance 1]
  refine ⟨by decide, text, drawn, ⟨rows, depicted.cells, depicted.full⟩, ?_, fun others same => ?_⟩
  · exact depicted.marked _ (.head _)
  · rw [unique others same]
    rfl

end TapeLang.Tape
