import TapeLang.Flat.Listing.Reading
import TapeLang.Proofs.Jumps

/-! Listings are read back.

The words of a line are its number, the name of the operation and what is shown of the operand,
however wide the numbers are (`words_listingLine`). So reading a listing gives back the slots with
zero for every operand that is not shown (`ofListing?_listing`). In lowered code these operands are
zero (`shown_assemble`), so the listing of packed code says all of it: no two packed codes have the
same one (`listing_is_lossless`). -/
namespace TapeLang

namespace Opcode

theorem name_ne_nil (op : Opcode) : op.name ≠ [] := by
  cases op <;> decide

theorem unbroken_name (op : Opcode) : CodePoint.char ' ' ∉ op.name := by
  cases op <;> decide

end Opcode

namespace Flat

variable {slots : List Slot}

/-! ### One line -/

/-- A slot as its line shows it: without an operand that means nothing. -/
def shown : Slot → Slot
  | (.clear, _) => (.clear, 0)
  | (.output, _) => (.output, 0)
  | (.input, _) => (.input, 0)
  | slot => slot

/-- The words for the operand of a slot. -/
def operandWords : Slot → List Text
  | (.move, arg) | (.add, arg) => [Numeral.signed arg]
  | (.jumpIfZero, arg) | (.jumpIfNonzero, arg) => ["->", Numeral.zeroFilled 5 arg]
  | _ => []

/-- The blanks behind a name that is filled up belong to the blank behind it. -/
theorem words_alignLeft {word : Text} (nonempty : word ≠ []) (unbroken : CodePoint.char ' ' ∉ word)
    (width : Nat) (rest : Text) :
    Words.split (Numeral.alignLeft width word ++ .char ' ' :: rest) = word :: Words.split rest := by
  rw [Numeral.alignLeft, List.rightpad, List.append_assoc, List.append_cons,
    ← List.replicate_succ', List.replicate_succ, List.cons_append,
    Words.split_cons nonempty unbroken, Words.split_blanks]

theorem words_signed (n : Int) : Words.split (Numeral.signed n) = [Numeral.signed n] :=
  Words.split_of_unbroken (Numeral.signed_ne_nil n)
    (Numeral.not_mem_of_isFigure Numeral.isFigure_of_mem_signed rfl)

theorem words_zeroFilled (width : Nat) (n : Int) :
    Words.split (Numeral.zeroFilled width n) = [Numeral.zeroFilled width n] :=
  Words.split_of_unbroken (Numeral.zeroFilled_ne_nil width n)
    (Numeral.not_mem_of_isFigure Numeral.isFigure_of_mem_zeroFilled rfl)

theorem words_numbered (number : Nat) (rest : Text) :
    Words.split (Numeral.zeroFilled 5 number ++ "  " ++ rest) =
      Numeral.zeroFilled 5 number :: Words.split rest := by
  have cut := Words.split_cons (Numeral.zeroFilled_ne_nil 5 number)
    (Numeral.not_mem_of_isFigure Numeral.isFigure_of_mem_zeroFilled rfl) (.char ' ' :: rest)
  rw [Words.split_blank] at cut
  rw [List.append_assoc]
  exact cut

/-- What every line with an operand starts with. -/
theorem words_named (number : Nat) (op : Opcode) (rest : Text) :
    Words.split (Numeral.zeroFilled 5 number ++ "  " ++ Numeral.alignLeft 16 op.name ++
      .char ' ' :: rest) = Numeral.zeroFilled 5 number :: op.name :: Words.split rest := by
  rw [List.append_assoc, words_numbered, words_alignLeft op.name_ne_nil op.unbroken_name]

/-- **The words of a line**, whatever the widths of its number and its operand are. -/
theorem words_listingLine (number : Nat) (op : Opcode) (arg : Int) :
    Words.split (listingLine number op arg) =
      Numeral.zeroFilled 5 number :: op.name :: operandWords (op, arg) := by
  have amount : Words.split (Numeral.zeroFilled 5 number ++ "  " ++ Numeral.alignLeft 16 op.name ++
      " " ++ Numeral.signed arg) =
      [Numeral.zeroFilled 5 number, op.name, Numeral.signed arg] := by
    rw [List.append_assoc, ← words_signed arg]
    exact words_named number op (Numeral.signed arg)
  have target : Words.split (Numeral.zeroFilled 5 number ++ "  " ++ Numeral.alignLeft 16 op.name ++
      " -> " ++ Numeral.zeroFilled 5 arg) =
      [Numeral.zeroFilled 5 number, op.name, "->", Numeral.zeroFilled 5 arg] := by
    have arrow : Words.split (Text.ofString "->" ++ .char ' ' :: Numeral.zeroFilled 5 arg) = _ :=
      Words.split_cons (by decide) (by decide) _
    rw [List.append_assoc, ← words_zeroFilled 5 arg, ← arrow]
    exact words_named number op _
  have bare : Words.split (Numeral.zeroFilled 5 number ++ "  " ++ op.name) =
      [Numeral.zeroFilled 5 number, op.name] := by
    rw [words_numbered, Words.split_of_unbroken op.name_ne_nil op.unbroken_name]
  cases op with
  | move => exact amount
  | add => exact amount
  | jumpIfZero => exact target
  | jumpIfNonzero => exact target
  | clear => exact bare
  | output => exact bare
  | input => exact bare

/-- Words of six digits, where fewer would be filled up. -/
example : Words.split (listingLine 100000 .jumpIfZero 123456) =
    ["100000", "JUMP_IF_ZERO", "->", "123456"].map Text.ofString := by decide

theorem listingLine_ne_nil (number : Nat) (op : Opcode) (arg : Int) :
    listingLine number op arg ≠ [] := by
  intro empty
  have words := words_listingLine number op arg
  rw [empty] at words
  exact nomatch words

theorem slotOfWords?_listingLine (number : Nat) (slot : Slot) :
    slotOfWords? (Words.split (listingLine number slot.1 slot.2)) = some (shown slot) := by
  obtain ⟨op, arg⟩ := slot
  rw [words_listingLine, slotOfWords?, Opcode.ofName?_name]
  cases op with
  | move => simp [operandWords, shown, Numeral.signed?_signed]
  | add => simp [operandWords, shown, Numeral.signed?_signed]
  | jumpIfZero => simp [operandWords, shown, Numeral.signed?_zeroFilled]
  | jumpIfNonzero => simp [operandWords, shown, Numeral.signed?_zeroFilled]
  | clear => rfl
  | output => rfl
  | input => rfl

theorem unbroken_listingLine (number : Nat) (op : Opcode) (arg : Int) :
    CodePoint.char '\n' ∉ listingLine number op arg := by
  have front : CodePoint.char '\n' ∉ Numeral.zeroFilled 5 number ++ "  " :=
    List.not_mem_append (Numeral.not_mem_of_isFigure Numeral.isFigure_of_mem_zeroFilled rfl)
      (by decide)
  have named : CodePoint.char '\n' ∉
      Numeral.zeroFilled 5 number ++ "  " ++ Numeral.alignLeft 16 op.name :=
    List.not_mem_append front (by cases op <;> decide)
  have amount : CodePoint.char '\n' ∉ Numeral.signed arg :=
    Numeral.not_mem_of_isFigure Numeral.isFigure_of_mem_signed rfl
  have target : CodePoint.char '\n' ∉ Numeral.zeroFilled 5 arg :=
    Numeral.not_mem_of_isFigure Numeral.isFigure_of_mem_zeroFilled rfl
  cases op with
  | move => exact List.not_mem_append (List.not_mem_append named (by decide)) amount
  | add => exact List.not_mem_append (List.not_mem_append named (by decide)) amount
  | jumpIfZero => exact List.not_mem_append (List.not_mem_append named (by decide)) target
  | jumpIfNonzero => exact List.not_mem_append (List.not_mem_append named (by decide)) target
  | clear => exact List.not_mem_append front (by decide)
  | output => exact List.not_mem_append front (by decide)
  | input => exact List.not_mem_append front (by decide)

/-! ### All lines -/

/-- The lines of slots from a number on. -/
def linesFrom : Nat → List Slot → List Text
  | _, [] => []
  | number, (op, arg) :: slots => listingLine number op arg :: linesFrom (number + 1) slots

theorem listingLines_eq (fits : ∀ slot ∈ slots, fitsWord slot.2 = true) (number : Nat) :
    listingLines number ((codes slots).zip (slots.map fun slot => Int64.ofInt slot.2)) =
      .ok (linesFrom number slots) := by
  induction slots generalizing number with
  | nil => rfl
  | cons slot slots ih =>
    obtain ⟨here, rest⟩ := List.forall_mem_cons.1 fits
    simp only [codes_cons, List.map_cons, List.zip_cons_cons, listingLines, Opcode.ofCode?_code,
      ih rest, toInt_ofInt here, linesFrom]

theorem listing_append (fits : ∀ slot ∈ slots, fitsWord slot.2 = true) :
    (append {} slots).listing = .ok (Lines.join (linesFrom 0 slots) ++ "\n") := by
  rw [listing, toList_ops_append, toList_args_append, listingLines_eq fits]

theorem mapM_linesFrom (number : Nat) (slots : List Slot) :
    (linesFrom number slots).mapM (fun line => slotOfWords? (Words.split line)) =
      some (slots.map shown) := by
  induction slots generalizing number with
  | nil => rfl
  | cons slot slots ih =>
    rw [linesFrom, List.mapM_cons, slotOfWords?_listingLine number slot, ih]
    rfl

theorem forall_mem_linesFrom {P : Text → Prop}
    (each : ∀ number op arg, P (listingLine number op arg)) (number : Nat) (slots : List Slot) :
    ∀ line ∈ linesFrom number slots, P line := by
  induction slots generalizing number with
  | nil => exact nofun
  | cons slot slots ih => exact List.forall_mem_cons.2 ⟨each _ _ _, ih _⟩

/-- Lines are found again between their newlines. -/
theorem filter_split_join {lines : List Text}
    (inside : ∀ line ∈ lines, line ≠ [] ∧ CodePoint.char '\n' ∉ line) :
    (Lines.split (Lines.join lines ++ "\n")).filter (fun line => !line.isEmpty) = lines := by
  have cut : Lines.split (Lines.join lines ++ "\n") = Lines.split (Lines.join lines) ++ [[]] :=
    Lines.split_append (Lines.join lines) []
  rw [cut, List.filter_append]
  cases lines with
  | nil => rfl
  | cons line lines =>
    rw [Lines.split_join (fun l mem => (inside l mem).2) (List.cons_ne_nil _ _),
      List.filter_eq_self.2 fun l mem => by simp [(inside l mem).1]]
    exact List.append_nil _

theorem ofColumns?_slots (fits : ∀ slot ∈ slots, fitsWord slot.2 = true) :
    ofColumns? (slots.map (·.1.code.toInt)) (slots.map (·.2)) = some (append {} slots) := by
  have ops : (slots.map (·.1.code.toInt)).all fitsWord = true := by
    simp [fitsWord_toInt]
  have args : (slots.map (·.2)).all fitsWord = true := by
    rw [List.all_map]
    exact List.all_eq_true.2 fits
  rw [ofColumns?, ops, args]
  simp [append, Function.comp_def, Int64.ofInt_toInt]

theorem fitsWord_shown {slot : Slot} (fits : fitsWord slot.2 = true) :
    fitsWord (shown slot).2 = true := by
  unfold shown
  split <;> first | rfl | exact fits

/-- **A listing is read back as the slots that it shows.** -/
theorem ofListing?_listing (fits : ∀ slot ∈ slots, fitsWord slot.2 = true) :
    ∃ text, (append {} slots).listing = .ok text ∧
      ofListing? text = some (append {} (slots.map shown)) := by
  refine ⟨_, listing_append fits, ?_⟩
  have inside := forall_mem_linesFrom
    (P := fun line => line ≠ [] ∧ CodePoint.char '\n' ∉ line)
    (fun number op arg => ⟨listingLine_ne_nil number op arg, unbroken_listingLine number op arg⟩)
  have columns : ofColumns? _ _ = some (append {} (slots.map shown)) := ofColumns?_slots (by
    simp only [List.forall_mem_map]
    exact fun slot mem => fitsWord_shown (fits slot mem))
  simp only [ofListing?, filter_split_join (inside 0 slots), mapM_linesFrom]
  exact columns

/-! ### Lowered code -/

theorem shown_slotOf {op : Op} {slot : Slot} (h : slotOf op = some slot) : shown slot = slot := by
  unfold slotOf at h
  split at h <;> cases h <;> rfl

/-- No operand of lowered code is lost on its line. -/
theorem shown_assemble (c : Packed) (start : Nat) :
    (assemble start c).map shown = assemble start c := by
  induction c generalizing start with
  | nil => rfl
  | leaf op rest ih =>
    cases hs : slotOf op with
    | none => simp only [assemble, hs, ih]
    | some slot => simp only [assemble, hs, List.map_cons, shown_slotOf hs, ih]
  | loop body rest ihb ihr =>
    simp only [assemble, List.map_cons, List.map_append, ihb, ihr]
    rfl

theorem ofListing?_of_lower {c : Packed} {f : Flat} (lowered : c.lower? = some f) :
    ∃ text, f.listing = .ok text ∧ ofListing? text = some f := by
  obtain ⟨rfl, fits⟩ := slots_of_lower lowered
  have back := ofListing?_listing fits
  rwa [shown_assemble] at back

end Flat

/-- **The listing of packed code says all of it.** Packed code whose operands are words is lowered
unless it has more slots than jumps can go to. Then its listing is read back as the lowered code,
and that as the packed code, however many slots there are and whatever the operands; so two packed
codes that are lowered have the same listing only if they are the same. -/
theorem listing_is_lossless {a b : Packed} (packed : a.all Op.isPacked = true)
    (packed' : b.all Op.isPacked = true) (operands : Flat.operandsFit a = true) :
    ((∃ f, a.lower? = some f) ↔ fitsWord (a.size + a.loops : Nat) = true) ∧
    (∀ f, a.lower? = some f →
      ∃ text, f.listing = .ok text ∧ Flat.ofListing? text = some f ∧ f.code? = some a) ∧
    ∀ f g, a.lower? = some f → b.lower? = some g → f.listing = g.listing → a = b := by
  refine ⟨Flat.exists_lower?_iff packed operands, fun f lowered => ?_,
    fun f g lowered lowered' same => ?_⟩
  · obtain ⟨text, listed, back⟩ := Flat.ofListing?_of_lower lowered
    exact ⟨text, listed, back, Flat.code?_of_lower packed lowered⟩
  · obtain ⟨text, listed, back⟩ := Flat.ofListing?_of_lower lowered
    obtain ⟨text', listed', back'⟩ := Flat.ofListing?_of_lower lowered'
    obtain rfl : text = text' := Except.ok.inj (listed.symm.trans (same.trans listed'))
    obtain rfl : f = g := Option.some.inj (back.symm.trans back')
    exact Option.some.inj
      ((Flat.code?_of_lower packed lowered).symm.trans (Flat.code?_of_lower packed' lowered'))

theorem listing_is_lossless_extremes :
    ∃ f g, Packed.extremes.lower? = some f ∧ Packed.lower? (.leaf (.add 0) .nil) = some g ∧
      (∃ text, f.listing = .ok text ∧ Flat.ofListing? text = some f ∧
        f.code? = some Packed.extremes) ∧ f.listing ≠ g.listing := by
  have lossless := listing_is_lossless (a := Packed.extremes) (b := .leaf (.add 0) .nil)
    (by decide) (by decide) (by decide)
  obtain ⟨f, lowered⟩ := lossless.1.2 (by decide)
  obtain ⟨g, lowered'⟩ := Flat.exists_lower? (c := .leaf (.add 0) .nil) (by decide) (by decide)
    (by decide)
  exact ⟨f, g, lowered, lowered', lossless.2.1 f lowered, fun same =>
    absurd (lossless.2.2 f g lowered lowered' same) (by decide)⟩

end TapeLang
