import TapeLang.Flat.Reading
import TapeLang.Proofs.Nesting
import TapeLang.Proofs.Safety
import TapeLang.Proofs.Scripts

/-! The jumps of lowered code, and the packed code that it gives back.

The two jumps of a loop stand around the slots of its body, so they are brackets around a nested
sequence, at every depth (`nested_assemble`), and each goes just past the other (`paired_assemble`).
Brackets in a nested sequence have no other partner, so this says where every jump goes
(`paired_of_lower`). A reader that goes by the brackets alone comes through the slots of a body to
the body itself (`acceptAll?_assemble`). -/
namespace TapeLang

theorem Packed.slots_eq (c : Packed) : c.slots = c.size + c.loops := by
  induction c with
  | nil => rfl
  | leaf op rest ih =>
    simp only [Packed.slots, Code.size, Code.loops, ih]
    omega
  | loop body rest ihb ihr =>
    simp only [Packed.slots, Code.size, Code.loops, ihb, ihr]
    omega

theorem Opcode.code_injective : Function.Injective Opcode.code := by
  intro a b same
  have named := congrArg ofCode? same
  rw [ofCode?_code, ofCode?_code] at named
  exact Option.some.inj named

namespace Flat

/-- The brackets of flat code. -/
abbrev opening : Int64 := Opcode.jumpIfZero.code

@[inherit_doc opening]
abbrev closing : Int64 := Opcode.jumpIfNonzero.code

theorem opening_ne_closing : opening ≠ closing := by decide

/-- The jumps of flat code are nested like brackets, and each goes just past its partner. -/
structure Paired (f : Flat) : Prop where
  nested : Nested opening closing f.ops.toList
  closed : ∀ {i : Nat}, f.op? i = some opening →
    ∃ j, Matching opening closing f.ops.toList i j
  opened : ∀ {j : Nat}, f.op? j = some closing →
    ∃ i, Matching opening closing f.ops.toList i j
  forth : ∀ {i j : Nat}, Matching opening closing f.ops.toList i j →
    f.HasSlot i (.jumpIfZero, j + 1)
  back : ∀ {i j : Nat}, Matching opening closing f.ops.toList i j →
    f.HasSlot j (.jumpIfNonzero, i + 1)

/-! ### Slots as brackets -/

def codes (slots : List Slot) : List Int64 := slots.map (·.1.code)

@[simp] theorem codes_nil : codes [] = [] := rfl

@[simp] theorem codes_cons (slot : Slot) (slots : List Slot) :
    codes (slot :: slots) = slot.1.code :: codes slots := rfl

@[simp] theorem codes_append (slots more : List Slot) :
    codes (slots ++ more) = codes slots ++ codes more := List.map_append

@[simp] theorem length_codes (slots : List Slot) : (codes slots).length = slots.length :=
  List.length_map _

/-- What is no jump is no bracket. -/
theorem nested_slot {slot : Slot} (h : slot.1.isJump = false) :
    Nested opening closing [slot.1.code] := by
  refine nested_other (fun same => ?_) fun same => ?_
  · rw [Opcode.code_injective same] at h
    cases h
  · rw [Opcode.code_injective same] at h
    cases h

theorem nested_assemble (c : Packed) (start : Nat) :
    Nested opening closing (codes (assemble start c)) := by
  induction c generalizing start with
  | nil => exact nested_nil
  | leaf op rest ih =>
    cases hs : slotOf op with
    | none =>
      simp only [assemble, hs]
      exact ih start
    | some slot =>
      simp only [assemble, hs]
      exact (nested_slot (isJump_slotOf hs)).append (ih (start + 1))
  | loop body rest ihb ihr =>
    have whole := ((ihb (start + 1)).wrap opening_ne_closing).append
      (ihr (start + 1 + (assemble (start + 1) body).length + 1))
    simpa [assemble] using whole

/-- **The jump into a loop goes just past the jump back, and that one just past it.** -/
theorem paired_assemble {c : Packed} {start : Nat} {before rest : List Slot} {stop : Int}
    (here : assemble start c = before ++ (.jumpIfZero, stop) :: rest) :
    ∃ (inner : List Slot) (back : Int) (after : List Slot),
      rest = inner ++ (.jumpIfNonzero, back) :: after ∧ Nested opening closing (codes inner) ∧
      back = start + before.length + 1 ∧ stop = back + inner.length + 1 := by
  induction c generalizing start before rest with
  | nil => simp [assemble] at here
  | leaf op more ih =>
    cases hs : slotOf op with
    | none =>
      simp only [assemble, hs] at here
      exact ih here
    | some slot =>
      simp only [assemble, hs] at here
      cases before with
      | nil =>
        cases here
        cases isJump_slotOf hs
      | cons first before =>
        obtain ⟨inner, back, after, split, nested, goesBack, goesOn⟩ := ih (List.cons.inj here).2
        refine ⟨inner, back, after, split, nested, ?_, goesOn⟩
        rw [List.length_cons]
        omega
  | loop body more ihb ihr =>
    simp only [assemble] at here
    cases before with
    | nil =>
      obtain ⟨same, behind⟩ := List.cons.inj here
      cases same
      refine ⟨_, _, _, behind.symm, nested_assemble body (start + 1), ?_, ?_⟩
      · simp
      · omega
    | cons first before =>
      rcases List.append_eq_append_iff.1 (List.cons.inj here).2 with
        ⟨between, rfl, later⟩ | ⟨between, inside, later⟩
      · cases between with
        | nil => cases later
        | cons last between =>
          obtain ⟨inner, back, after, split, nested, goesBack, goesOn⟩ :=
            ihr (List.cons.inj later).2
          refine ⟨inner, back, after, split, nested, ?_, goesOn⟩
          rw [List.length_cons, List.length_append, List.length_cons]
          omega
      · cases between with
        | nil => cases later
        | cons again between =>
          obtain ⟨same, rfl⟩ := List.cons.inj later
          subst same
          obtain ⟨inner, back, after, rfl, nested, goesBack, goesOn⟩ := ihb inside
          refine ⟨inner, back, _, List.append_assoc .., nested, ?_, goesOn⟩
          rw [List.length_cons]
          omega

/-! ### Lowered code -/

/-- Lowered code is the slots of packed code, and their operands are words. -/
theorem slots_of_lower {c : Packed} {f : Flat} (lowered : c.lower? = some f) :
    f = append {} (assemble 0 c) ∧ ∀ slot ∈ assemble 0 c, fitsWord slot.2 = true := by
  rw [lower?_eq] at lowered
  split at lowered
  · next fits =>
    cases lowered
    rw [Bool.and_eq_true] at fits
    exact ⟨rfl, fits_assemble fits.1 0 (by simpa using fits.2)⟩
  · exact nomatch lowered

theorem toList_ops_append (slots : List Slot) : (append {} slots).ops.toList = codes slots := by
  simp [append, codes]

theorem toList_args_append (slots : List Slot) :
    (append {} slots).args.toList = slots.map fun slot => Int64.ofInt slot.2 := by
  simp [append]

/-- Each of two jumps that match goes just past the other. -/
theorem hasSlot_of_matching {c : Packed} (fits : ∀ slot ∈ assemble 0 c, fitsWord slot.2 = true)
    {i j : Nat} (pair : Matching opening closing (codes (assemble 0 c)) i j) :
    (append {} (assemble 0 c)).HasSlot i (.jumpIfZero, j + 1) ∧
      (append {} (assemble 0 c)).HasSlot j (.jumpIfNonzero, i + 1) := by
  obtain ⟨⟨op, stop⟩, here, code⟩ : ∃ slot, (assemble 0 c)[i]? = some slot ∧
      slot.1.code = opening := by
    simpa [codes] using pair.opening
  cases Opcode.code_injective code
  obtain ⟨before, rest, split, rfl⟩ := exists_split here
  obtain ⟨inner, back, after, rfl, nested, goesBack, goesOn⟩ := paired_assemble split
  -- The partner that was found is the only one.
  have partner : j = before.length + 1 + inner.length := by
    refine pair.unique opening_ne_closing ⟨codes before, codes inner, codes after, ?_, nested, ?_⟩
    · rw [split, codes_append, codes_cons, codes_append, codes_cons]
    · simp
  have later : assemble 0 c =
      (before ++ (.jumpIfZero, stop) :: inner) ++ (.jumpIfNonzero, back) :: after := by
    rw [split, List.append_assoc, List.cons_append]
  have place : (before ++ (Opcode.jumpIfZero, stop) :: inner).length = j := by
    rw [List.length_append, List.length_cons]
    omega
  have first : (append {} (assemble 0 c)).HasSlot before.length (.jumpIfZero, stop) :=
    hasSlot_of_split fits split rfl
  have last : (append {} (assemble 0 c)).HasSlot j (.jumpIfNonzero, back) :=
    hasSlot_of_split fits later place
  rw [show stop = j + 1 by omega] at first
  rw [show back = before.length + 1 by omega] at last
  exact ⟨first, last⟩

theorem paired_of_lower {c : Packed} {f : Flat} (lowered : c.lower? = some f) : f.Paired := by
  obtain ⟨rfl, fits⟩ := slots_of_lower lowered
  have row := toList_ops_append (assemble 0 c)
  have nested := row ▸ nested_assemble c 0
  have jump {i : Nat} {code : Int64} (here : (append {} (assemble 0 c)).op? i = some code) :
      (append {} (assemble 0 c)).ops.toList[i]? = some code := by
    rwa [Array.getElem?_toList, ← wordAt?_ofNat]
  exact
    { nested
      closed := fun here => nested.exists_closing opening_ne_closing (jump here)
      opened := fun here => nested.exists_opening opening_ne_closing (jump here)
      forth := fun pair => (hasSlot_of_matching fits (row ▸ pair)).1
      back := fun pair => (hasSlot_of_matching fits (row ▸ pair)).2 }

/-- No jump is left without its target. -/
theorem Paired.resolved {f : Flat} (h : f.Paired) {i : Nat} (opens : f.op? i = some opening) :
    f.arg? i ≠ some openTarget := by
  intro unresolved
  obtain ⟨j, pair⟩ := h.closed opens
  obtain ⟨-, word, found, goesOn⟩ := h.forth pair
  cases Option.some.inj (found.symm.trans unresolved)
  have ahead : (0 : Int) ≤ openTarget.toInt := by
    rw [goesOn]
    exact Int.natCast_nonneg (j + 1)
  exact absurd ahead (by decide)

/-! ### Reading back -/

/-- The slot of an operation is read as the operation. -/
theorem accept?_slotOf {op : Op} {slot : Slot} (h : slotOf op = some slot) (r : Reader) :
    r.accept? slot = some (r.push op) := by
  unfold slotOf at h
  split at h <;> cases h <;> rfl

theorem acceptAll?_append (slots more : List Slot) (r : Reader) :
    r.acceptAll? (slots ++ more) = (r.acceptAll? slots).bind (·.acceptAll? more) := by
  induction slots generalizing r with
  | nil => rfl
  | cons slot slots ih =>
    simp only [List.cons_append, Reader.acceptAll?]
    cases r.accept? slot with
    | none => rfl
    | some r => exact ih r

/-- **The slots of a body are read as the body**, whatever has been read before. -/
theorem acceptAll?_assemble {c : Packed} (packed : c.all Op.isPacked = true) (start : Nat)
    (r : Reader) :
    r.acceptAll? (assemble start c) = some { r with built := c.reverseOnto r.built } := by
  induction c generalizing start r with
  | nil => rfl
  | leaf op rest ih =>
    simp only [Code.all, Bool.and_eq_true] at packed
    obtain ⟨slot, hs⟩ := slotOf_of_isPacked packed.1
    simp only [assemble, hs, Reader.acceptAll?, accept?_slotOf hs, Option.bind_some, ih packed.2]
    rfl
  | loop body rest ihb ihr =>
    simp only [Code.all, Bool.and_eq_true] at packed
    simp only [assemble, Reader.acceptAll?, Reader.accept?, Option.bind_some, acceptAll?_append,
      ihb packed.1, Reader.enter, Reader.leave?, ihr packed.2]
    rw [show body.reverseOnto .nil = body.reverse from rfl, Code.reverse_reverse]
    rfl

theorem mapM_words {slots : List Slot} (fits : ∀ slot ∈ slots, fitsWord slot.2 = true) :
    ((codes slots).zip (slots.map fun slot => Int64.ofInt slot.2)).mapM
      (fun (code, arg) => (Opcode.ofCode? code).map (·, arg.toInt)) = some slots := by
  induction slots with
  | nil => rfl
  | cons slot slots ih =>
    obtain ⟨here, rest⟩ := List.forall_mem_cons.1 fits
    simp only [codes_cons, List.map_cons, List.zip_cons_cons, List.mapM_cons, ih rest,
      Opcode.ofCode?_code, toInt_ofInt here]
    rfl

theorem slots?_append {slots : List Slot} (fits : ∀ slot ∈ slots, fitsWord slot.2 = true) :
    (append {} slots).slots? = some slots := by
  have aligned : (append {} slots).args.size = (append {} slots).ops.size := by simp [append]
  rw [slots?, if_pos aligned, toList_ops_append, toList_args_append, mapM_words fits]

theorem code?_of_lower {c : Packed} {f : Flat} (packed : c.all Op.isPacked = true)
    (lowered : c.lower? = some f) : f.code? = some c := by
  obtain ⟨rfl, fits⟩ := slots_of_lower lowered
  rw [code?, slots?_append fits, Option.bind_some, acceptAll?_assemble packed, Option.bind_some]
  exact congrArg some c.reverse_reverse

/-! ### Room for the jumps -/

theorem length_assemble_eq {c : Packed} (packed : c.all Op.isPacked = true) :
    (assemble 0 c).length = c.size + c.loops :=
  (length_assemble packed 0).trans c.slots_eq

/-- Packed code whose operands are words is lowered unless jumps cannot go to its end. -/
theorem exists_lower?_iff {c : Packed} (packed : c.all Op.isPacked = true)
    (operands : operandsFit c = true) :
    (∃ f, c.lower? = some f) ↔ fitsWord (c.size + c.loops : Nat) = true := by
  rw [lower?_eq, operands, length_assemble_eq packed, Bool.true_and]
  cases fitsWord (c.size + c.loops : Nat) <;> simp

end Flat

/-- **Lowered code pairs its jumps and gives back the packed code.** Packed code whose operands are
words is lowered unless it has more slots than jumps can go to. Then both columns have one slot for
each operation and two for each loop; the jumps are nested like brackets, the two jumps of a pair go
just past each other, and none is left without its target; and reading the pairs as loops and the
other slots as operations gives back the packed code. -/
theorem lowering_is_undone {c : Packed} (packed : c.all Op.isPacked = true)
    (operands : Flat.operandsFit c = true) :
    ((∃ f, c.lower? = some f) ↔ fitsWord (c.size + c.loops : Nat) = true) ∧
    ∀ f, c.lower? = some f →
      f.ops.size = c.size + c.loops ∧ f.args.size = c.size + c.loops ∧ f.Paired ∧
      (∀ i : Nat, f.op? i = some Flat.opening → f.arg? i ≠ some Flat.openTarget) ∧
      f.code? = some c := by
  have length := Flat.length_assemble_eq packed
  refine ⟨Flat.exists_lower?_iff packed operands, fun f lowered => ⟨?_, ?_,
    Flat.paired_of_lower lowered, fun i => (Flat.paired_of_lower lowered).resolved,
    Flat.code?_of_lower packed lowered⟩⟩
  · obtain ⟨rfl, -⟩ := Flat.slots_of_lower lowered
    simp [Flat.append, length]
  · obtain ⟨rfl, -⟩ := Flat.slots_of_lower lowered
    simp [Flat.append, length]

/-- A loop without a body in a loop, with the largest and the least operand. -/
def Packed.extremes : Packed :=
  .leaf (.add 9223372036854775807) <|
    .loop (.loop .nil <| .leaf (.move (-9223372036854775808)) .nil) <| .leaf .clear .nil

theorem lowering_is_undone_extremes :
    ∃ f, Packed.extremes.lower? = some f ∧ f.ops.size = 7 ∧ f.args.size = 7 ∧ f.Paired ∧
      (∀ i : Nat, f.op? i = some Flat.opening → f.arg? i ≠ some Flat.openTarget) ∧
      f.code? = some Packed.extremes := by
  have undone := lowering_is_undone (c := Packed.extremes) (by decide) (by decide)
  obtain ⟨f, lowered⟩ := undone.1.2 (by decide)
  exact ⟨f, lowered, undone.2 f lowered⟩

end TapeLang
