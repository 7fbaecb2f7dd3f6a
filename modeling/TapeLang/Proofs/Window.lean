import TapeLang.Proofs.TotalMap

/-! Where the window of a tape begins and ends.

The window grows by what is missing at the time, so how it grows depends on what is stored already.
Where it ends up does not. An access raises the origin offset to the distance of its address to the
left of zero and the end of the window to the address after its own, and never lowers either
(`originOffset_reach`, `endAddress_reach`). So the two are least upper bounds over zero and the
addresses accessed so far (`Encloses`), which an action keeps (`encloses_perform`) and a row of
actions keeps (`encloses_performAll`), and the lowest and the highest of the addresses settle them
(`window_of_accesses`). -/
namespace TapeLang.Tape

/-! ### One access -/

/-- The address at which the window ends: the first one to its right. -/
def endAddress (t : Tape) : Int := t.size - t.originOffset

/-- A window grows to the left or to the right by the missing cells, or not at all. -/
theorem reach_eq (t : Tape) (address : Int) :
    t.reach address =
      if t.index address < 0 then t.grow .left (-t.index address).toNat
      else if t.size ≤ t.index address then t.grow .right (t.index address + 1 - t.size).toNat
      else t := by
  unfold reach growth?
  by_cases below : t.index address < 0
  · simp only [if_pos below]
  · by_cases above : (t.size : Int) ≤ t.index address
    · simp only [if_neg below, if_pos above]
    · simp only [if_neg below, if_neg above]

theorem originOffset_reach (t : Tape) (address : Int) :
    (t.reach address).originOffset = max (-address) t.originOffset := by
  rw [reach_eq]
  split_ifs with below above <;> rw [index] at below
  · simp only [grow, index]
    omega
  · -- A window that grows to the right begins where it did.
    simp only [grow]
    omega
  · omega

theorem endAddress_reach (t : Tape) (address : Int) :
    (t.reach address).endAddress = max (address + 1) t.endAddress := by
  rw [reach_eq, endAddress, endAddress]
  split_ifs with below above <;> rw [index] at below
  · -- A window that grows to the left ends where it did.
    rw [size_grow]
    simp only [grow, index]
    omega
  · rw [index] at above
    rw [size_grow]
    simp only [grow, index]
    omega
  · rw [index] at above
    omega

/-! ### The addresses accessed -/

/-- The address at which an action accesses a tape, if it does, with the cursor at an address. -/
def Action.access? (cursor : Int) : Action → Option Int
  | .read | .write _ | .increment | .decrement => some cursor
  | .reach address => some address
  | .advance _ | .retreat _ | .place _ | .peek _ | .span | .cells | .dump _ => none

/-- The addresses that some actions access, one after the other. -/
def History.accesses (h : History) : List Action → List Int
  | [] => []
  | action :: actions => (action.access? h.cursor).toList ++ (h.record action).accesses actions

/-- The window of a tape is the least one with its ends on either side of zero that holds some
addresses. -/
structure Encloses (t : Tape) (accessed : List Int) : Prop where
  originOffset_le : ∀ bound, t.originOffset ≤ bound ↔ 0 ≤ bound ∧ ∀ a ∈ accessed, -a ≤ bound
  endAddress_le : ∀ bound, t.endAddress ≤ bound ↔ 0 ≤ bound ∧ ∀ a ∈ accessed, a + 1 ≤ bound

variable {t t' : Tape} {accessed accessed' : List Int}

theorem encloses_start : Encloses .empty [] where
  originOffset_le bound := by simp [empty]
  endAddress_le bound := by simp [empty, endAddress, size]

theorem Encloses.reach (encloses : Encloses t accessed) (address : Int) :
    Encloses (t.reach address) (accessed ++ [address]) where
  originOffset_le bound := by
    rw [originOffset_reach, max_le_iff, encloses.originOffset_le, List.forall_mem_append,
      List.forall_mem_singleton, and_comm, and_assoc]
  endAddress_le bound := by
    rw [endAddress_reach, max_le_iff, encloses.endAddress_le, List.forall_mem_append,
      List.forall_mem_singleton, and_comm, and_assoc]

/-- Only the ends of the window matter. -/
theorem Encloses.of_same (encloses : Encloses t accessed)
    (offset : t'.originOffset = t.originOffset) (size : t'.size = t.size) :
    Encloses t' accessed where
  originOffset_le bound := by rw [offset, encloses.originOffset_le]
  endAddress_le bound := by rw [endAddress, offset, size, ← endAddress, encloses.endAddress_le]

/-- Storing a byte in the cell at the cursor is an access there. -/
theorem Encloses.stored (encloses : Encloses t accessed) (byte : UInt8) :
    Encloses (t.touch.put t.touch.cursor byte) (accessed ++ [t.cursor]) :=
  (encloses.reach t.cursor).of_same rfl Array.size_setIfInBounds

/-- An action that accesses no cell leaves the stored cells and where they stand as they are. -/
theorem perform_of_access?_eq_none {action : Action} (idle : action.access? t.cursor = none) :
    (t.perform action).2.cells = t.cells ∧ (t.perform action).2.originOffset = t.originOffset := by
  cases action with
  | advance | retreat | place | peek | span | cells | dump => exact ⟨rfl, rfl⟩
  | read | write | increment | decrement | reach => cases idle

/-- Every action keeps the window the least one around the addresses accessed. -/
theorem encloses_perform (encloses : Encloses t accessed) (action : Action) :
    Encloses (t.perform action).2 (accessed ++ (action.access? t.cursor).toList) := by
  cases access : action.access? t.cursor with
  | none =>
    obtain ⟨cells, offset⟩ := perform_of_access?_eq_none access
    rw [Option.toList_none, List.append_nil]
    exact encloses.of_same offset (congrArg Array.size cells)
  | some address =>
    cases action with
    | read =>
      cases access
      simp only [perform, fetch_eq]
      exact encloses.reach t.cursor
    | write value =>
      cases access
      simp only [perform, store_eq]
      exact encloses.stored _
    | increment =>
      cases access
      simp only [perform, count_eq]
      exact encloses.stored _
    | decrement =>
      cases access
      simp only [perform, count_eq]
      exact encloses.stored _
    | reach _ =>
      cases access
      simp only [perform, locate_eq]
      exact encloses.reach address
    | advance | retreat | place | peek | span | cells | dump => cases access

theorem encloses_performAll {h : History} (kept : Keeps t h) (encloses : Encloses t accessed)
    (actions : List Action) :
    Encloses (t.performAll actions) (accessed ++ h.accesses actions) := by
  induction actions generalizing t h accessed with
  | nil => simpa [performAll, History.accesses] using encloses
  | cons action actions ih =>
    have rest := ih (keeps_perform kept action) (encloses_perform encloses action)
    rwa [kept.cursor, List.append_assoc] at rest

/-! ### Its ends -/

theorem Encloses.originOffset_eq (encloses : Encloses t accessed) :
    t.originOffset = max 0 (-accessed.min?.getD 0) := by
  obtain ⟨nonneg, all⟩ := (encloses.originOffset_le t.originOffset).1 le_rfl
  cases least : accessed.min? with
  | none =>
    cases List.min?_eq_none_iff.1 least
    exact le_antisymm ((encloses.originOffset_le 0).2 ⟨le_rfl, by simp⟩) nonneg
  | some low =>
    obtain ⟨mem, below⟩ := List.min?_eq_some_iff.1 least
    have bound : ∀ a ∈ accessed, -a ≤ max 0 (-low) := fun a h =>
      le_max_of_le_right (Int.neg_le_neg (below a h))
    exact le_antisymm ((encloses.originOffset_le _).2 ⟨le_max_left _ _, bound⟩)
      (max_le nonneg (all low mem))

theorem Encloses.endAddress_eq (encloses : Encloses t accessed) :
    t.endAddress = max 0 (1 + accessed.max?.getD (-1)) := by
  obtain ⟨nonneg, all⟩ := (encloses.endAddress_le t.endAddress).1 le_rfl
  cases greatest : accessed.max? with
  | none =>
    cases List.max?_eq_none_iff.1 greatest
    exact le_antisymm ((encloses.endAddress_le 0).2 ⟨le_rfl, by simp⟩) nonneg
  | some high =>
    obtain ⟨mem, above⟩ := List.max?_eq_some_iff.1 greatest
    have bound : ∀ a ∈ accessed, a + 1 ≤ max 0 (1 + high) := fun a h => by
      have := above a h
      omega
    refine le_antisymm ((encloses.endAddress_le _).2 ⟨le_max_left _ _, bound⟩) (max_le nonneg ?_)
    exact Int.add_comm 1 high ▸ all high mem

/-- The extreme addresses settle both ends. -/
theorem Encloses.window_eq (encloses : Encloses t accessed) (encloses' : Encloses t' accessed')
    (least : accessed.min? = accessed'.min?) (greatest : accessed.max? = accessed'.max?) :
    t.originOffset = t'.originOffset ∧ t.size = t'.size := by
  have offset : t.originOffset = t'.originOffset := by
    rw [encloses.originOffset_eq, encloses'.originOffset_eq, least]
  have last : t.endAddress = t'.endAddress := by
    rw [encloses.endAddress_eq, encloses'.endAddress_eq, greatest]
  simp only [Tape.endAddress] at last
  omega

/-- **The lowest and the highest address accessed settle the window.** After any actions on a fresh
tape, nothing is stored if no address was accessed; otherwise the origin offset is the distance of
the lowest one to the left of zero, and the window ends after the highest one, or at zero. So
actions that agree on these two leave the same window, whatever they do in between and in which
order. On any tape, an action that accesses no cell leaves the stored cells and where they stand as
they are. -/
theorem window_of_accesses (actions : List Action) :
    let t := empty.performAll actions
    let accessed := History.start.accesses actions
    (accessed = [] → t.originOffset = 0 ∧ t.size = 0) ∧
      (accessed ≠ [] → ∃ low high, accessed.min? = some low ∧ accessed.max? = some high ∧
        t.originOffset = max 0 (-low) ∧ (t.size : Int) = t.originOffset + max 0 (1 + high)) ∧
      (∀ others, (History.start.accesses others).min? = accessed.min? →
        (History.start.accesses others).max? = accessed.max? →
        (empty.performAll others).originOffset = t.originOffset ∧
          (empty.performAll others).size = t.size) ∧
      ∀ (tape : Tape) (action : Action), action.access? tape.cursor = none →
        (tape.perform action).2.cells = tape.cells ∧
          (tape.perform action).2.originOffset = tape.originOffset := by
  intro t accessed
  have encloses (actions : List Action) :
      Encloses (empty.performAll actions) (History.start.accesses actions) :=
    encloses_performAll keeps_start encloses_start actions
  have offset : t.originOffset = max 0 (-accessed.min?.getD 0) := (encloses actions).originOffset_eq
  have last : t.size - t.originOffset = max 0 (1 + accessed.max?.getD (-1)) :=
    (encloses actions).endAddress_eq
  refine ⟨fun empty => ?_, fun nonempty => ?_,
    fun others => (encloses others).window_eq (encloses actions),
    fun tape action => perform_of_access?_eq_none⟩
  · rw [empty] at offset last
    change _ = max 0 (-0) at offset
    change _ = max 0 (1 + -1) at last
    omega
  · obtain ⟨low, least⟩ := Option.isSome_iff_exists.1 (List.isSome_min?_of_ne_nil nonempty)
    obtain ⟨high, greatest⟩ := Option.isSome_iff_exists.1 (List.isSome_max?_of_ne_nil nonempty)
    rw [least] at offset
    rw [greatest] at last
    exact ⟨low, high, least, greatest, offset, by simp only [Option.getD_some] at last; omega⟩

/-- The same two extremes, reached from the left first and from the right first, and none. -/
theorem window_of_accesses_swapped :
    let t := empty.performAll [.retreat 2, .write 5, .place 3, .peek 9, .increment]
    (t.originOffset = 2 ∧ t.size = 6) ∧
      (empty.performAll [.reach 3, .place 0, .read, .retreat 2, .decrement]).originOffset = 2 ∧
      (t.perform .span).2.cells = t.cells ∧ (empty.performAll [.advance 4, .cells]).size = 0 := by
  obtain ⟨-, some_accessed, agree, idle⟩ :=
    window_of_accesses [.retreat 2, .write 5, .place 3, .peek 9, .increment]
  obtain ⟨low, high, least, greatest, offset, size⟩ := some_accessed (by decide)
  cases (show some (-2) = some low from least)
  cases (show some 3 = some high from greatest)
  exact ⟨⟨offset, by omega⟩, (agree [.reach 3, .place 0, .read, .retreat 2, .decrement] rfl rfl).1,
    (idle _ .span rfl).1, ((window_of_accesses [.advance 4, .cells]).1 rfl).2⟩

end TapeLang.Tape
