import TapeLang.Machine

/-! Stored cells.

Every access first makes the cell at the cursor stored. Once it is stored, accesses to it change
nothing but its byte: touching it again does nothing, and of several stores the last one stays
(`adjust_adjust`, `write_adjust`, `write_write`). So what a run of accesses to one cell does is one
touch and one store. -/
namespace TapeLang

namespace Tape

theorem growth?_eq_none_iff (t : Tape) (address : Int) :
    t.growth? address = none ↔ 0 ≤ t.index address ∧ t.index address < t.size := by
  unfold growth?
  by_cases below : t.index address < 0
  · simp only [if_pos below]
    exact ⟨fun h => (nomatch h), fun h => absurd h.1 (by omega)⟩
  · by_cases above : (t.size : Int) ≤ t.index address
    · simp only [if_neg below, if_pos above]
      exact ⟨fun h => (nomatch h), fun h => absurd h.2 (by omega)⟩
    · simp only [if_neg below, if_neg above, true_iff]
      omega

/-- A cell is stored after the window has grown up to it. -/
theorem growth?_grow (t : Tape) (address : Int) (g : Growth) (h : t.growth? address = some g) :
    (t.grow g.side g.amount).growth? address = none := by
  rw [growth?_eq_none_iff]
  unfold growth? at h
  by_cases below : t.index address < 0
  · simp only [if_pos below, Option.some.injEq] at h
    subst h
    simp only [grow, index, size, Array.size_append, Array.size_replicate] at below ⊢
    omega
  · by_cases above : (t.size : Int) ≤ t.index address
    · simp only [if_neg below, if_pos above, Option.some.injEq] at h
      subst h
      simp only [grow, index, size, Array.size_append, Array.size_replicate] at below above ⊢
      omega
    · simp [below, above] at h

@[simp] theorem cursor_grow (t : Tape) (side : Side) (amount : Nat) :
    (t.grow side amount).cursor = t.cursor := by
  cases side <;> rfl

@[simp] theorem size_grow (t : Tape) (side : Side) (amount : Nat) :
    (t.grow side amount).size = t.size + amount := by
  cases side <;> simp [grow, size, Nat.add_comm]

theorem amount_pos {t : Tape} {address : Int} {g : Growth} (h : t.growth? address = some g) :
    0 < g.amount := by
  unfold growth? at h
  by_cases below : t.index address < 0
  · simp only [if_pos below, Option.some.injEq] at h
    subst h
    simp only
    omega
  · by_cases above : (t.size : Int) ≤ t.index address
    · simp only [if_neg below, if_pos above, Option.some.injEq] at h
      subst h
      simp only
      omega
    · simp [below, above] at h

/-- Growing changes the byte at no address: the cells that are added read as zero before, too. -/
@[simp] theorem peek_grow (t : Tape) (side : Side) (amount : Nat) (address : Int) :
    (t.grow side amount).peek address = t.peek address := by
  cases side with
  | left =>
    have shifted : (t.grow .left amount).index address = t.index address + amount := by
      simp only [grow, index]
      omega
    have cells : (t.grow .left amount).cells = Array.replicate amount 0 ++ t.cells := rfl
    simp only [peek, shifted, cells, Array.getD_eq_getD_getElem?]
    by_cases below : t.index address < 0
    · rw [if_pos below]
      split
      · rfl
      · rw [Array.getElem?_append_left (by simp; omega)]
        simp [show (t.index address + amount).toNat < amount by omega]
    · have past : (t.index address + amount).toNat = amount + (t.index address).toNat := by omega
      rw [if_neg below, if_neg (by omega), past, Array.getElem?_append_right (by simp)]
      simp
  | right =>
    have same : (t.grow .right amount).index address = t.index address := rfl
    have cells : (t.grow .right amount).cells = t.cells ++ Array.replicate amount 0 := rfl
    simp only [peek, same, cells, Array.getD_eq_getD_getElem?, Array.getElem?_append]
    split
    · rfl
    · split
      · rfl
      · next past =>
        rw [Array.getElem?_eq_none (Nat.le_of_not_lt past)]
        simp only [Array.getElem?_replicate]
        split <;> rfl

@[simp] theorem growth?_put (t : Tape) (address other : Int) (value : UInt8) :
    (t.put address value).growth? other = t.growth? other := by
  simp [growth?, put, index, size]

/-- The byte at a stored cell is the one at its index. -/
theorem peek_of_stored (t : Tape) (address : Int) (h : t.growth? address = none) :
    ∃ inside : (t.index address).toNat < t.cells.size,
      t.peek address = t.cells[(t.index address).toNat] := by
  obtain ⟨nonneg, below⟩ := (t.growth?_eq_none_iff address).1 h
  have inside : (t.index address).toNat < t.cells.size := by
    simp only [size] at below
    omega
  refine ⟨inside, ?_⟩
  rw [peek, if_neg (by omega)]
  simp [Array.getD, inside]

theorem peek_put (t : Tape) (address : Int) (value : UInt8) (h : t.growth? address = none) :
    (t.put address value).peek address = value := by
  obtain ⟨inside, byte⟩ := (t.put address value).peek_of_stored address (by simpa using h)
  rw [byte]
  exact Array.getElem_setIfInBounds_self inside

theorem peek_put_of_ne {t : Tape} {address other : Int} (h : t.growth? address = none)
    (value : UInt8) (ne : other ≠ address) : (t.put address value).peek other = t.peek other := by
  obtain ⟨nonneg, -⟩ := (t.growth?_eq_none_iff address).1 h
  have same : (t.put address value).index other = t.index other := rfl
  have cells : (t.put address value).cells = t.cells.setIfInBounds (t.index address).toNat value :=
    rfl
  rw [peek, peek, same, cells]
  split
  · rfl
  · have apart : (t.index address).toNat ≠ (t.index other).toNat := by
      simp only [index] at *
      omega
    simp only [Array.getD_eq_getD_getElem?, Array.getElem?_setIfInBounds_ne apart]

theorem put_put (t : Tape) (address : Int) (first second : UInt8) :
    (t.put address first).put address second = t.put address second := by
  simp [put, index]

theorem put_peek (t : Tape) (address : Int) (h : t.growth? address = none) :
    t.put address (t.peek address) = t := by
  obtain ⟨inside, byte⟩ := t.peek_of_stored address h
  rw [put, byte, Array.setIfInBounds, dif_pos inside, Array.set_getElem_self]

end Tape

namespace Machine

def Stored (m : Machine) : Prop := m.tape.growth? m.tape.cursor = none

/-- The machine with the byte of the cell at the cursor replaced, which is to be stored. -/
def store (m : Machine) (byte : UInt8) : Machine :=
  { m with tape := m.tape.put m.tape.cursor byte }

theorem adjust_eq (m : Machine) (amount : Int) :
    m.adjust amount = m.touch.store (m.touch.current + .ofInt amount) := rfl

theorem write_eq (m : Machine) (value : Int) : m.write value = m.touch.store (.ofInt value) := rfl

/-! ### Touching -/

theorem touch_of_stored {m : Machine} (h : m.Stored) : m.touch = m := by
  unfold Stored at h
  simp only [touch, reach, h]

theorem stored_touch (m : Machine) : m.touch.Stored := by
  unfold Stored touch reach
  split
  · next h => exact h
  · next g h =>
    rw [Tape.cursor_grow]
    exact m.tape.growth?_grow m.tape.cursor g h

@[simp] theorem cursor_touch (m : Machine) : m.touch.tape.cursor = m.tape.cursor := by
  unfold touch reach
  split
  · rfl
  · exact m.tape.cursor_grow _ _

/-- The window stays as large as it is exactly if the cell is stored. -/
theorem size_touch_eq_iff (m : Machine) : m.touch.tape.size = m.tape.size ↔ m.Stored := by
  constructor
  · intro same
    cases h : m.tape.growth? m.tape.cursor with
    | none => exact h
    | some g =>
      have grown : m.touch.tape = m.tape.grow g.side g.amount := by simp only [touch, reach, h]
      have := Tape.amount_pos h
      rw [grown, Tape.size_grow] at same
      omega
  · intro stored
    rw [touch_of_stored stored]

@[simp] theorem peek_touch (m : Machine) (address : Int) :
    m.touch.tape.peek address = m.tape.peek address := by
  unfold touch reach
  split
  · rfl
  · exact m.tape.peek_grow _ _ _

theorem stored_store {m : Machine} (h : m.Stored) (byte : UInt8) : (m.store byte).Stored :=
  (m.tape.growth?_put _ _ byte).trans h

@[simp] theorem touch_touch (m : Machine) : m.touch.touch = m.touch :=
  touch_of_stored m.stored_touch

theorem touch_store {m : Machine} (h : m.Stored) (byte : UInt8) :
    (m.store byte).touch = m.store byte :=
  touch_of_stored (stored_store h byte)

@[simp] theorem touch_adjust (m : Machine) (amount : Int) :
    (m.adjust amount).touch = m.adjust amount :=
  touch_store m.stored_touch _

@[simp] theorem touch_write (m : Machine) (value : Int) : (m.write value).touch = m.write value :=
  touch_store m.stored_touch _

/-! ### One cell -/

theorem current_store {m : Machine} (h : m.Stored) (byte : UInt8) :
    (m.store byte).current = byte :=
  m.tape.peek_put m.tape.cursor byte h

theorem store_store (m : Machine) (first second : UInt8) :
    (m.store first).store second = m.store second := by
  simp only [store]
  congr 1
  exact m.tape.put_put m.tape.cursor first second

theorem store_current {m : Machine} (h : m.Stored) : m.store m.current = m := by
  unfold store current Tape.current
  rw [Tape.put_peek _ _ h]

theorem current_adjust (m : Machine) (amount : Int) :
    (m.adjust amount).current = m.touch.current + .ofInt amount :=
  current_store m.stored_touch _

theorem write_touch (m : Machine) (value : Int) : m.touch.write value = m.write value := by
  rw [write_eq, write_eq, touch_touch]

theorem adjust_adjust (m : Machine) (first second : Int) :
    (m.adjust first).adjust second = m.adjust (first + second) := by
  rw [adjust_eq _ second, touch_adjust, current_adjust, adjust_eq, adjust_eq, store_store,
    UInt8.ofInt_add, UInt8.add_assoc]

theorem write_adjust (m : Machine) (amount value : Int) :
    (m.adjust amount).write value = m.write value := by
  rw [write_eq, touch_adjust, adjust_eq, store_store, write_eq]

theorem write_write (m : Machine) (first second : Int) :
    (m.write first).write second = m.write second := by
  rw [write_eq _ second, touch_write, write_eq, store_store, write_eq]

/-- A cell that is zero is touched by writing zero to it. -/
theorem write_zero_of_current {m : Machine} (zero : m.touch.current = 0) :
    m.write 0 = m.touch := by
  have stored := store_current m.stored_touch
  rw [zero] at stored
  exact stored

/-- Amounts that are equal modulo 256 add the same. -/
theorem adjust_congr (m : Machine) {first second : Int} (h : first % 256 = second % 256) :
    m.adjust first = m.adjust second := by
  have same : UInt8.ofInt first = UInt8.ofInt second := by
    unfold UInt8.ofInt
    rw [show (2 : Int) ^ 8 = 256 from rfl, h]
  rw [adjust_eq, adjust_eq, same]

/-! ### Moving -/

theorem move_move (m : Machine) (first second : Int) :
    (m.move first).move second = m.move (first + second) := by
  simp only [move, Tape.move, Int.add_assoc]

theorem move_zero (m : Machine) : m.move 0 = m := by
  simp only [move, Tape.move, Int.add_zero]

/-! ### Input and output -/

/-- Reading that succeeds stores a byte of the input, or what the policy puts in place of one. -/
theorem input_ended {policy : EndOfInput} {m m' : Machine} (run : m.input policy = .ended m') :
    (∃ byte unread, m' = { m with unread }.write (UInt8.toNat byte)) ∨ m' = m.write 0 ∨
      m' = m.touch := by
  unfold input at run
  split at run
  · next byte unread _ =>
    cases run
    exact .inl ⟨byte, unread, rfl⟩
  · cases policy with
    | error => cases run
    | zero =>
      cases run
      exact .inr (.inl rfl)
    | unchanged =>
      cases run
      exact .inr (.inr rfl)

/-- Nothing is read or written. -/
def SameStreams (m m' : Machine) : Prop := m'.unread = m.unread ∧ m'.written = m.written

theorem SameStreams.symm {m m' : Machine} (h : m.SameStreams m') : m'.SameStreams m :=
  ⟨h.1.symm, h.2.symm⟩

theorem sameStreams_touch (m : Machine) : SameStreams m m.touch := by
  unfold touch reach
  split <;> exact ⟨rfl, rfl⟩

theorem sameStreams_adjust (m : Machine) (amount : Int) : SameStreams m (m.adjust amount) :=
  m.sameStreams_touch

theorem sameStreams_write (m : Machine) (value : Int) : SameStreams m (m.write value) :=
  m.sameStreams_touch

end Machine

end TapeLang
