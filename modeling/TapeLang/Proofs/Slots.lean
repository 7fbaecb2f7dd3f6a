import TapeLang.Flat.Lowering

/-! Where packed code stands in flat code.

Flat code is written with placeholders that are patched later. What comes of it is a list of slots
that can be said without patching (`assemble`, `flattenOnto_eq`). `Flat.Holds` says what a run needs
to know of it: from which slot the evaluation of some packed code can go on, and at which one it is
left. A loop can be entered at either of its two jumps, since both look at the cell and both lead to
the body or past the loop. Flat code made from packed code holds it from the first slot to the end
(`holds_of_lower`). -/
namespace TapeLang

/-- Whether an operation has a place in flat code: of what is left as it is in a program only output
and input have. -/
def Op.isPacked : Op → Bool
  | .plain .output => true
  | .plain .input => true
  | .plain _ | .plainLoop _ => false
  | _ => true

/-- How many slots packed code takes: one for an operation and two for a loop. -/
def Packed.slots : Packed → Nat
  | .nil => 0
  | .leaf _ rest => slots rest + 1
  | .loop body rest => slots body + slots rest + 2

namespace Flat

abbrev Slot := Opcode × Int

theorem slotOf_of_isPacked {op : Op} (h : op.isPacked = true) : ∃ slot, slotOf op = some slot := by
  match op, h with
  | .add amount, _ => exact ⟨_, rfl⟩
  | .move distance, _ => exact ⟨_, rfl⟩
  | .clear, _ => exact ⟨_, rfl⟩
  | .plain .output, _ => exact ⟨_, rfl⟩
  | .plain .input, _ => exact ⟨_, rfl⟩

/-! ### Code without placeholders -/

/-- The slots of packed code that begins at a given slot. -/
def assemble (start : Nat) : Packed → List Slot
  | .nil => []
  | .leaf op rest =>
    match slotOf op with
    | some slot => slot :: assemble (start + 1) rest
    | none => assemble start rest
  | .loop body rest =>
    let inner := assemble (start + 1) body
    let stop := start + 1 + inner.length
    (.jumpIfZero, stop + 1) ::
      (inner ++ (Opcode.jumpIfNonzero, (start + 1 : Int)) :: assemble (stop + 1) rest)

def append (f : Flat) (slots : List Slot) : Flat :=
  ⟨f.ops ++ (slots.map fun s => s.1.code).toArray,
    f.args ++ (slots.map fun s => .ofInt s.2).toArray⟩

@[simp] theorem append_nil (f : Flat) : f.append [] = f := by simp [append]

@[simp] theorem append_append (f : Flat) (slots more : List Slot) :
    (f.append slots).append more = f.append (slots ++ more) := by
  simp [append]

@[simp] theorem size_append (f : Flat) (slots : List Slot) :
    (f.append slots).size = f.size + slots.length := by
  simp [append, size]

theorem push_eq_append (f : Flat) (op : Opcode) (arg : Int) :
    f.push op (.ofInt arg) = f.append [(op, arg)] := by
  simp [push, append]

def Aligned (f : Flat) : Prop := f.args.size = f.ops.size

theorem Aligned.append {f : Flat} (h : f.Aligned) (slots : List Slot) :
    (f.append slots).Aligned := by
  simpa [Aligned, Flat.append] using h

/-- A patched slot is as if it had been written so at once. -/
theorem patch_append {f : Flat} (h : f.Aligned) (op : Opcode) (before arg : Int)
    (slots : List Slot) :
    (f.append ((op, before) :: slots)).patch f.size (.ofInt arg) =
      f.append ((op, arg) :: slots) := by
  simp only [patch, Flat.append, List.map_cons, Flat.mk.injEq, true_and]
  rw [show f.size = f.args.size from h.symm, Array.setIfInBounds_append_right (Nat.le_refl _)]
  simp

theorem flattenOnto_eq (c : Packed) {f : Flat} (h : f.Aligned) :
    flattenOnto c f = f.append (assemble f.size c) := by
  induction c generalizing f with
  | nil => simp [flattenOnto, assemble]
  | leaf op rest ih =>
    cases hs : slotOf op with
    | none => simp only [flattenOnto, assemble, hs, ih h]
    | some slot =>
      simp only [flattenOnto, assemble, hs, push_eq_append]
      rw [ih (h.append _), size_append, append_append]
      rfl
  | loop body rest ihb ihr =>
    have opening : f.push .jumpIfZero openTarget = f.append [(.jumpIfZero, -1)] := by
      rw [show openTarget = .ofInt (-1) by decide, push_eq_append]
    simp only [flattenOnto, assemble, opening]
    rw [ihb (h.append _)]
    simp only [append_append, push_eq_append, size_append, List.length_singleton, List.cons_append,
      List.nil_append]
    rw [patch_append h, ihr (h.append _)]
    simp [Nat.add_assoc, Nat.add_comm 1]

theorem length_assemble {c : Packed} (packed : c.all Op.isPacked = true) (start : Nat) :
    (assemble start c).length = c.slots := by
  induction c generalizing start with
  | nil => rfl
  | leaf op rest ih =>
    simp only [Code.all, Bool.and_eq_true] at packed
    obtain ⟨slot, hs⟩ := slotOf_of_isPacked packed.1
    simp only [assemble, hs, List.length_cons, ih packed.2, Packed.slots]
  | loop body rest ihb ihr =>
    simp only [Code.all, Bool.and_eq_true] at packed
    simp only [assemble, List.length_cons, List.length_append, ihb packed.1, ihr packed.2,
      Packed.slots]
    omega

/-! ### Slots that a run finds -/

/-- An operation with its operand stands at a slot. -/
def HasSlot (f : Flat) (p : Nat) (slot : Slot) : Prop :=
  f.op? p = some slot.1.code ∧ ∃ word, f.arg? p = some word ∧ word.toInt = slot.2

theorem toInt_ofInt {n : Int} (h : fitsWord n = true) : (Int64.ofInt n).toInt = n := by
  simp only [fitsWord, Bool.and_eq_true, decide_eq_true_eq] at h
  exact Int64.toInt_ofInt_of_le (by omega) (by omega)

theorem fitsWord_toInt (word : Int64) : fitsWord word.toInt = true := by
  have least := word.le_toInt
  have most := word.toInt_lt
  simp only [fitsWord, Bool.and_eq_true, decide_eq_true_eq]
  omega

theorem wordAt?_ofNat (column : Array Int64) (p : Nat) : wordAt? column p = column[p]? := by
  unfold wordAt? slotIn?
  by_cases inside : p < column.size
  · have bounds : 0 ≤ (p : Int) ∧ (p : Int) < column.size := by omega
    simp [bounds, show ¬ ((p : Int) < 0) by omega]
  · have bounds : ¬ (0 ≤ (p : Int) ∧ (p : Int) < column.size) := by omega
    simp only [show ¬ ((p : Int) < 0) by omega, if_false, bounds]
    exact (Array.getElem?_eq_none (by omega)).symm

theorem hasSlot_of_getElem? {slots : List Slot} {p : Nat} {slot : Slot}
    (here : slots[p]? = some slot) (fits : fitsWord slot.2 = true) :
    (append {} slots).HasSlot p slot := by
  refine ⟨?_, .ofInt slot.2, ?_, toInt_ofInt fits⟩
  · simp [op?, wordAt?_ofNat, append, here]
  · simp [arg?, wordAt?_ofNat, append, here]

/-- The evaluation of packed code can go on at one slot and is left at another one. -/
def Holds (f : Flat) : Packed → Nat → Nat → Prop
  | .nil, entry, exit => entry = exit
  | .leaf op rest, entry, exit =>
    ∃ slot, slotOf op = some slot ∧ f.HasSlot entry slot ∧ f.Holds rest (entry + 1) exit
  | .loop body rest, entry, exit =>
    ∃ start stop : Nat, (entry = start ∨ entry = stop) ∧
      f.HasSlot start (.jumpIfZero, stop + 1) ∧ f.HasSlot stop (.jumpIfNonzero, start + 1) ∧
      f.Holds body (start + 1) stop ∧ f.Holds rest (stop + 1) exit

/-- The slot behind a number of others. -/
theorem hasSlot_of_split {slots before after : List Slot} {slot : Slot} {p : Nat}
    (fits : ∀ slot ∈ slots, fitsWord slot.2 = true) (split : slots = before ++ slot :: after)
    (hp : before.length = p) : (append {} slots).HasSlot p slot := by
  have here : slots[p]? = some slot := by
    rw [split, ← hp]
    simp
  exact hasSlot_of_getElem? here (fits slot (List.mem_of_getElem? here))

/-- Packed code stands where its slots do. -/
theorem holds_of_split {slots : List Slot} (fits : ∀ slot ∈ slots, fitsWord slot.2 = true)
    {c : Packed} (packed : c.all Op.isPacked = true) {start exit : Nat} (before : List Slot)
    {after : List Slot} (split : slots = before ++ (assemble start c ++ after))
    (hstart : before.length = start) (hexit : start + (assemble start c).length = exit) :
    (append {} slots).Holds c start exit := by
  induction c generalizing start exit before after with
  | nil => exact hexit
  | leaf op rest ih =>
    simp only [Code.all, Bool.and_eq_true] at packed
    obtain ⟨slot, hs⟩ := slotOf_of_isPacked packed.1
    simp only [assemble, hs, List.length_cons] at split hexit
    refine ⟨slot, hs, hasSlot_of_split fits split hstart, ?_⟩
    exact ih packed.2 (before ++ [slot]) (by simpa using split) (by simp [hstart])
      (by omega)
  | loop body rest ihb ihr =>
    simp only [Code.all, Bool.and_eq_true] at packed
    simp only [assemble, List.length_cons, List.length_append] at split hexit
    generalize hinner : assemble (start + 1) body = inner at split hexit
    have closing : ∀ slot : Slot, (before ++ slot :: inner).length = start + 1 + inner.length := by
      intro slot
      rw [List.length_append, List.length_cons, hstart]
      omega
    refine ⟨start, start + 1 + inner.length, .inl rfl, hasSlot_of_split fits split hstart,
      hasSlot_of_split fits (by simpa using split) (closing _), ?_, ?_⟩
    · exact ihb packed.1 (before ++ [_]) (by rw [hinner]; simpa using split)
        (by simp [hstart]) (by rw [hinner])
    · exact ihr packed.2 (before ++ _ :: inner ++ [_]) (by simpa using split)
        (by rw [List.length_append, closing]; rfl) (by omega)

/-! ### Lowered code -/

theorem fitsWord_of_le {n bound : Nat} (le : n ≤ bound) (h : fitsWord bound = true) :
    fitsWord n = true := by
  simp only [fitsWord, Bool.and_eq_true, decide_eq_true_eq] at h ⊢
  omega

/-- The operands of assembled code fit if those of its operations do and jumps can go to its end. -/
theorem fits_assemble {c : Packed} (operands : operandsFit c = true) (start : Nat)
    (size : fitsWord (start + (assemble start c).length : Nat) = true) :
    ∀ slot ∈ assemble start c, fitsWord slot.2 = true := by
  induction c generalizing start with
  | nil => exact fun _ h => nomatch h
  | leaf op rest ih =>
    simp only [operandsFit, Code.all, Bool.and_eq_true] at operands
    cases hs : slotOf op with
    | none =>
      simp only [assemble, hs] at size ⊢
      exact ih operands.2 _ size
    | some slot =>
      simp only [assemble, hs, List.length_cons] at size ⊢
      rintro other (_ | ⟨_, mem⟩)
      · simpa only [hs] using operands.1
      · exact ih operands.2 _ (fitsWord_of_le (by omega) size) other mem
  | loop body rest ihb ihr =>
    simp only [operandsFit, Code.all, Bool.and_eq_true] at operands
    simp only [assemble, List.length_cons, List.length_append] at size ⊢
    intro slot mem
    rcases List.mem_cons.1 mem with rfl | mem
    · exact fitsWord_of_le (n := start + 1 + (assemble (start + 1) body).length + 1) (by omega) size
    rcases List.mem_append.1 mem with mem | mem
    · exact ihb operands.1 _ (fitsWord_of_le (by omega) size) slot mem
    rcases List.mem_cons.1 mem with rfl | mem
    · exact fitsWord_of_le (n := start + 1) (by omega) size
    · exact ihr operands.2 _ (fitsWord_of_le (by omega) size) slot mem

theorem lower?_eq (c : Packed) : c.lower? =
    if operandsFit c && fitsWord (assemble 0 c).length then some (append {} (assemble 0 c))
    else none := by
  have flat : flattenOnto c {} = append {} (assemble 0 c) := flattenOnto_eq c rfl
  unfold Packed.lower?
  rw [flat]
  by_cases operands : operandsFit c = true <;> simp [operands, size, append]

/-- Packed code can be lowered if its operands fit and jumps can go to its end. -/
theorem exists_lower? {c : Packed} (packed : c.all Op.isPacked = true)
    (operands : operandsFit c = true) (room : fitsWord c.slots = true) :
    ∃ f, c.lower? = some f := by
  rw [lower?_eq, operands, length_assemble packed, room]
  exact ⟨_, rfl⟩

/-- **Flat code made from packed code holds it from the first slot to the end.** -/
theorem holds_of_lower {c : Packed} {f : Flat} (packed : c.all Op.isPacked = true)
    (h : c.lower? = some f) : f.Holds c 0 f.size := by
  rw [lower?_eq] at h
  split at h
  · next fits =>
    cases h
    rw [Bool.and_eq_true] at fits
    have slots := fits_assemble fits.1 0 (by simpa using fits.2)
    have split : assemble 0 c = [] ++ (assemble 0 c ++ []) := by simp
    exact holds_of_split slots packed [] split rfl (by simp [size, append])
  · exact nomatch h

end Flat

end TapeLang
