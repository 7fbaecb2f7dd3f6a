import Mathlib.Data.Int.Range
import TapeLang.Proofs.Storage
import TapeLang.Tape.Action

/-! A tape is a map from all addresses to bytes.

What is stored of a tape, and where the window starts, depends on every access so far; what can be
learnt from it depends only on what was written. `History` keeps just that: the writes, and where
the cursor stands. An address then holds the last number written there modulo 256, or zero. Growing
moves the stored bytes and changes the byte at no address, and a write changes the byte at one
(`peek_put_touch`), so a tape keeps to its history in every action (`keeps_perform`) and in every
row of actions (`keeps_performAll`). What a tape answers is what its history says, and every index
that it uses is inside its window (`answers_of_history`). -/
namespace TapeLang.Tape

/-! ### Finding a cell -/

@[simp] theorem cursor_reach (t : Tape) (address : Int) : (t.reach address).cursor = t.cursor := by
  unfold reach
  split
  · rfl
  · exact t.cursor_grow _ _

@[simp] theorem peek_reach (t : Tape) (address other : Int) :
    (t.reach address).peek other = t.peek other := by
  unfold reach
  split
  · rfl
  · exact t.peek_grow _ _ _

/-- A cell is stored once it has been reached. -/
theorem growth?_reach (t : Tape) (address : Int) : (t.reach address).growth? address = none := by
  unfold reach
  split
  · next h => exact h
  · next g h => exact t.growth?_grow address g h

theorem reach_of_stored {t : Tape} {address : Int} (h : t.growth? address = none) :
    t.reach address = t := by
  simp only [reach, h]

/-- The index at which a cell is found is its index on the tape that is left. -/
theorem locate_eq (t : Tape) (address : Int) :
    t.locate address = ((t.reach address).index address, t.reach address) := by
  unfold locate reach
  split
  · next h => simp only [h]
  · next amount offset size h =>
    -- A window that has grown to the left starts at the address.
    have first : (t.grow .left amount).index address = 0 := by
      unfold growth? at h
      by_cases below : t.index address < 0
      · simp only [if_pos below, Option.some.injEq, Growth.mk.injEq, true_and] at h
        simp only [grow, index] at below h ⊢
        omega
      · by_cases above : (t.size : Int) ≤ t.index address <;> simp [below, above] at h
    simp only [h, first]
  · next amount offset size h =>
    simp only [h]
    rfl

/-- An index inside the window at which the cell of an address stands. -/
def Indexes (t : Tape) (address index : Int) : Prop :=
  0 ≤ index ∧ index < t.size ∧ index = address + t.originOffset

theorem indexes_of_stored {t : Tape} {address : Int} (h : t.growth? address = none) :
    t.Indexes address (t.index address) := by
  obtain ⟨nonneg, below⟩ := (t.growth?_eq_none_iff address).1 h
  exact ⟨nonneg, below, rfl⟩

theorem indexes_locate (t : Tape) (address : Int) :
    (t.reach address).Indexes address (t.locate address).1 := by
  rw [locate_eq]
  exact indexes_of_stored (t.growth?_reach address)

/-! ### Access at the cursor -/

theorem stored_touch (t : Tape) : t.touch.growth? t.touch.cursor = none := by
  rw [touch, cursor_reach]
  exact t.growth?_reach t.cursor

theorem current_touch (t : Tape) : t.touch.current = t.current := by
  rw [current, current, touch, cursor_reach, peek_reach]

theorem fetch_eq (t : Tape) : t.fetch = (t.current, t.touch) := by
  obtain ⟨nonneg, -⟩ := (t.touch.growth?_eq_none_iff t.touch.cursor).1 t.stored_touch
  have byte : t.touch.current = t.touch.cells.getD (t.touch.index t.touch.cursor).toNat 0 := by
    rw [current, peek, if_neg (Int.not_lt.2 nonneg)]
  rw [touch, cursor_reach] at byte
  simp only [fetch, locate_eq, ← t.current_touch, touch, byte]

theorem store_eq (t : Tape) (value : Int) : t.store value = t.write value := by
  simp only [store, locate_eq, write, put, touch, cursor_reach]

theorem ofInt_add_emod (byte : UInt8) (amount : Int) :
    UInt8.ofInt ((byte.toNat + amount) % 256) = byte + .ofInt amount := by
  have reduced : UInt8.ofInt ((byte.toNat + amount) % 256) = .ofInt (byte.toNat + amount) := by
    unfold UInt8.ofInt
    rw [show (2 : Int) ^ 8 = 256 from rfl, Int.emod_emod_of_dvd _ (Int.dvd_refl 256)]
  have whole : UInt8.ofInt byte.toNat = byte := by
    apply UInt8.toNat_inj.1
    have := byte.toNat_lt
    rw [UInt8.ofInt, UInt8.toNat_ofNat']
    omega
  rw [reduced, UInt8.ofInt_add, whole]

/-- Reading the byte and storing the sum is adding to the cell. -/
theorem count_eq (t : Tape) (amount : Int) : t.count amount = t.adjust amount := by
  have again : t.touch.touch = t.touch := reach_of_stored t.stored_touch
  simp only [count, fetch_eq, store_eq, write, adjust, again, ofInt_add_emod, current_touch]

/-- Storing a byte at the cursor changes what is read there and nowhere else. -/
theorem peek_put_touch (t : Tape) (byte : UInt8) (address : Int) :
    (t.touch.put t.touch.cursor byte).peek address =
      if address = t.cursor then byte else t.peek address := by
  have cursor : t.touch.cursor = t.cursor := t.cursor_reach t.cursor
  by_cases here : address = t.cursor
  · rw [if_pos here, here, ← cursor]
    exact t.touch.peek_put t.touch.cursor byte t.stored_touch
  · rw [if_neg here, peek_put_of_ne t.stored_touch byte (cursor ▸ here)]
    exact t.peek_reach t.cursor address

/-! ### The window -/

/-- The addresses of a window in ascending order. -/
def addresses : Option (Int × Int) → List Int
  | none => []
  | some (low, high) => Int.range low (high + 1)

theorem numbered_eq_mapIdx (start : Int) (values : List UInt8) :
    numbered start values = values.mapIdx fun i value => (start + i, value) := by
  induction values generalizing start with
  | nil => rfl
  | cons value values ih =>
    rw [numbered, ih, List.mapIdx_cons]
    simp [Int.add_assoc, Int.add_comm 1]

/-- The cells of a window are those of its addresses, each with the byte that is read there. -/
theorem entries_eq (t : Tape) :
    t.entries = (addresses t.span?).map fun address => (address, t.peek address) := by
  rw [entries, numbered_eq_mapIdx]
  by_cases empty : t.size = 0
  · have none_stored : t.cells = #[] := Array.eq_empty_of_size_eq_zero empty
    simp [span?, empty, none_stored, addresses]
  · simp only [span?, if_neg empty, addresses, Int.range]
    apply List.ext_getElem
    · simp [size]
    · intro i inside _
      have inside : i < t.cells.size := by simpa using inside
      have place : t.index (-t.originOffset + i) = i := by
        simp only [index]
        omega
      simp [peek, place, inside]

/-! ### Histories -/

/-- What has been done to a tape. -/
structure History where
  cursor : Int := 0
  /-- The addresses that were written with the numbers, the last write first. -/
  writes : List (Int × Int) := []

namespace History

def start : History := {}

/-- What an address holds: the last number written there modulo 256, or zero if there is none. -/
def byte (h : History) (address : Int) : Int :=
  match h.writes.lookup address with
  | some value => value % 256
  | none => 0

def wrote (h : History) (value : Int) : History :=
  { h with writes := (h.cursor, value) :: h.writes }

def record (h : History) : Action → History
  | .advance distance => { h with cursor := h.cursor + distance }
  | .retreat distance => { h with cursor := h.cursor - distance }
  | .place address => { h with cursor := address }
  | .write value => h.wrote value
  | .increment => h.wrote (h.byte h.cursor + 1)
  | .decrement => h.wrote (h.byte h.cursor - 1)
  | .read | .reach _ | .peek _ | .span | .cells | .dump _ => h

def recordAll (h : History) : List Action → History
  | [] => h
  | action :: actions => (h.record action).recordAll actions

theorem byte_wrote (h : History) (value address : Int) :
    (h.wrote value).byte address =
      if address = h.cursor then value % 256 else h.byte address := by
  by_cases here : address = h.cursor
  · simp [byte, wrote, here]
  · have apart : (address == h.cursor) = false := by simpa using here
    simp only [byte, wrote, List.lookup_cons, apart, if_neg here]

end History

/-- A tape is as its history says. -/
structure Keeps (t : Tape) (h : History) : Prop where
  cursor : t.cursor = h.cursor
  bytes : ∀ address, ((t.peek address).toNat : Int) = h.byte address

variable {t : Tape} {h : History}

theorem keeps_start : Keeps .empty .start where
  cursor := rfl
  bytes address := by
    unfold peek
    split <;> rfl

theorem Keeps.moved (kept : Keeps t h) {cursor cursor' : Int} (same : cursor = cursor') :
    Keeps { t with cursor } { h with cursor := cursor' } where
  cursor := same
  bytes := kept.bytes

theorem Keeps.touched (kept : Keeps t h) (address : Int) : Keeps (t.reach address) h where
  cursor := (t.cursor_reach address).trans kept.cursor
  bytes other := by rw [peek_reach, kept.bytes]

theorem Keeps.wrote (kept : Keeps t h) {byte : UInt8} {value : Int}
    (same : (byte.toNat : Int) = value % 256) :
    Keeps (t.touch.put t.touch.cursor byte) (h.wrote value) where
  cursor := (t.cursor_reach t.cursor).trans kept.cursor
  bytes address := by
    rw [peek_put_touch, History.byte_wrote, ← kept.cursor]
    split
    · exact same
    · exact kept.bytes address

theorem toNat_ofInt (value : Int) : ((UInt8.ofInt value).toNat : Int) = value % 256 := by
  rw [UInt8.ofInt, UInt8.toNat_ofNat']
  omega

theorem Keeps.counted (kept : Keeps t h) (amount : Int) :
    Keeps (t.count amount) (h.wrote (h.byte h.cursor + amount)) := by
  rw [count_eq, ← kept.cursor, ← kept.bytes]
  refine kept.wrote ?_
  show ((t.touch.current + .ofInt amount).toNat : Int) = _
  rw [current_touch, ← ofInt_add_emod, toNat_ofInt, Int.emod_emod_of_dvd _ (Int.dvd_refl 256)]
  rfl

/-- Every action keeps a tape to its history. -/
theorem keeps_perform (kept : Keeps t h) (action : Action) :
    Keeps (t.perform action).2 (h.record action) := by
  cases action with
  | advance distance => exact kept.moved (by rw [kept.cursor])
  | retreat distance => exact kept.moved (by rw [kept.cursor, Int.sub_eq_add_neg])
  | place address => exact kept.moved rfl
  | read =>
    simp only [perform, fetch_eq]
    exact kept.touched t.cursor
  | write value =>
    simp only [perform, store_eq]
    exact kept.wrote (toNat_ofInt value)
  | increment => exact kept.counted 1
  | decrement => exact kept.counted (-1)
  | reach address =>
    simp only [perform, locate_eq]
    exact kept.touched address
  | peek address => exact kept
  | span => exact kept
  | cells => exact kept
  | dump width => exact kept

theorem keeps_performAll (kept : Keeps t h) (actions : List Action) :
    Keeps (t.performAll actions) (h.recordAll actions) := by
  induction actions generalizing t h with
  | nil => exact kept
  | cons action actions ih => exact ih (keeps_perform kept action)

/-- **A tape refines a map from all addresses to bytes.** After any actions on a fresh tape, looking
at an address and reading with the cursor there answer the number last written there modulo 256, or
zero; the cells are those of the addresses of the span in ascending order, each with that number;
and reading, writing and making a cell stored use an index inside the window that is left, at the
distance of the origin offset from the address. -/
theorem answers_of_history (actions : List Action) :
    let t := empty.performAll actions
    let h := History.start.recordAll actions
    (∀ address, (t.perform (.peek address)).1 = .number (h.byte address)) ∧
      t.cursor = h.cursor ∧
      (t.perform .read).1 = .number (h.byte t.cursor) ∧
      (∃ ends, (t.perform .span).1 = .span ends ∧
        (t.perform .cells).1 =
          .cells ((addresses ends).map fun address => (address, h.byte address))) ∧
      (t.perform .read).2.Indexes t.cursor (t.locate t.cursor).1 ∧
      (∀ value, (t.perform (.write value)).2.Indexes t.cursor (t.locate t.cursor).1) ∧
      ∀ address, ∃ index, (t.perform (.reach address)).1 = .number index ∧
        (t.perform (.reach address)).2.Indexes address index := by
  intro t h
  have kept : Keeps t h := keeps_performAll keeps_start actions
  have located := t.indexes_locate t.cursor
  refine ⟨fun address => ?_, kept.cursor, ?_, ⟨t.span?, rfl, ?_⟩, ?_, fun value => ?_,
    fun address => ⟨(t.locate address).1, rfl, ?_⟩⟩
  · simp only [perform, kept.bytes]
  · simp only [perform, fetch_eq, current, kept.bytes]
  · simp only [perform, entries_eq, List.map_map, Function.comp_def, kept.bytes]
  · simp only [perform, fetch_eq]
    exact located
  · simp only [perform, store_eq]
    have window : (t.write value).size = t.touch.size := Array.size_setIfInBounds
    exact ⟨located.1, window ▸ located.2.1, located.2.2⟩
  · have left : (t.perform (.reach address)).2 = t.reach address := by
      simp only [perform, locate_eq]
    rw [left]
    exact t.indexes_locate address

/-- The byte written first stays at its address when the window grows to the left. -/
example : ((empty.performAll [.write 10, .retreat 3, .decrement]).perform .cells).1 =
    .cells [(-3, 255), (-2, 0), (-1, 0), (0, 10)] := by
  decide

end TapeLang.Tape
