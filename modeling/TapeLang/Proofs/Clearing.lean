import TapeLang.Proofs.Bodies
import TapeLang.Proofs.Weights

/-! What folding into clearings leaves to fold.

A store right before a clearing is dropped, and only one for each clearing: what stood before the
store then stands before the clearing. So the folded body has a store before a clearing exactly
where a store and an addition stood before one (`storesBefore_peepholeBody`). A clearing before a
clearing has been folded too, so clearings in a row leave one. -/
namespace TapeLang.Packed

/-- A store stands right before a clearing. -/
def StoresBefore (c : Packed) : Prop := ∃ op, stores op = true ∧ c.HasRow [op, .clear]

/-- A store and an addition stand right before a clearing. -/
def StoresTwice (c : Packed) : Prop :=
  ∃ (op : Op) (n : Int), stores op = true ∧ c.HasRow [op, .add n, .clear]

variable {c rest body : Packed} {op : Op}

theorem clearsFirst_iff : clearsFirst c = true ↔ c.StartsWith [.clear] := by
  constructor
  · intro h
    obtain ⟨rest, rfl⟩ := eq_clear_of_clearsFirst h
    exact ⟨rest, rfl⟩
  · intro start
    obtain ⟨rest, rfl⟩ := start
    rfl

/-- What is dropped is a store with a clearing right behind it. -/
theorem drops_iff :
    (stores op && clearsFirst rest) = true ↔ stores op = true ∧ rest.StartsWith [.clear] := by
  rw [Bool.and_eq_true, clearsFirst_iff]

theorem eq_add_or_clear_of_stores (h : stores op = true) : (∃ n, op = .add n) ∨ op = .clear := by
  cases op with
  | add n => exact .inl ⟨n, rfl⟩
  | clear => exact .inr rfl
  | _ => cases h

@[simp] theorem not_storesBefore_nil : ¬ StoresBefore .nil := by simp [StoresBefore]

@[simp] theorem storesBefore_loop : StoresBefore (.loop body rest) ↔ StoresBefore rest := by
  simp [StoresBefore]

theorem storesBefore_leaf :
    StoresBefore (.leaf op rest) ↔
      (stores op = true ∧ rest.StartsWith [.clear]) ∨ StoresBefore rest := by
  simp [StoresBefore, and_or_left, exists_or, and_left_comm]

@[simp] theorem not_storesTwice_nil : ¬ StoresTwice .nil := by simp [StoresTwice]

@[simp] theorem storesTwice_loop : StoresTwice (.loop body rest) ↔ StoresTwice rest := by
  simp [StoresTwice]

theorem storesTwice_leaf :
    StoresTwice (.leaf op rest) ↔
      (stores op = true ∧ ∃ n, rest.StartsWith [.add n, .clear]) ∨ StoresTwice rest := by
  simp [StoresTwice, and_or_left, exists_or, and_left_comm]

/-! ### A folded body -/

theorem startsWith_clear_peepholeBody :
    (peepholeBody c).StartsWith [.clear] ↔
      c.StartsWith [.clear] ∨ ∃ n, c.StartsWith [.add n, .clear] := by
  fun_induction peepholeBody c with
  | case1 => simp
  | case2 body rest _ => simp
  | case3 op rest drops ih =>
    obtain ⟨store, clears⟩ := drops_iff.1 drops
    rw [ih]
    rcases eq_add_or_clear_of_stores store with ⟨n, rfl⟩ | rfl <;> simp [clears]
  | case4 op rest keeps _ =>
    rw [drops_iff] at keeps
    constructor
    · intro h
      exact .inl (by simpa using h)
    · intro h
      rcases h with h | ⟨n, h⟩
      · simpa using h
      · obtain ⟨rfl, clears⟩ := Code.startsWith_leaf.1 h
        exact absurd ⟨rfl, clears⟩ keeps

/-- **A store stands before a clearing in a folded body where two stood before it.** -/
theorem storesBefore_peepholeBody : StoresBefore (peepholeBody c) ↔ StoresTwice c := by
  fun_induction peepholeBody c with
  | case1 => simp
  | case2 body rest ih => rw [storesBefore_loop, storesTwice_loop, ih]
  | case3 op rest drops ih =>
    -- A clearing follows, so no addition does.
    obtain ⟨-, clears⟩ := drops_iff.1 drops
    refine ih.trans (storesTwice_leaf.trans (or_iff_right fun h => ?_)).symm
    obtain ⟨-, n, adds⟩ := h
    obtain ⟨rest, rfl⟩ := clears
    simp at adds
  | case4 op rest keeps ih =>
    rw [drops_iff, not_and] at keeps
    rw [storesBefore_leaf, storesTwice_leaf, ih, startsWith_clear_peepholeBody]
    refine or_congr_left (and_congr_right fun store => ?_)
    exact or_iff_right (keeps store)

/-! ### Folding once more -/

/-- **Folding leaves a body alone exactly if no store stands before a clearing in it.** -/
theorem peepholeBody_eq_self_iff : peepholeBody c = c ↔ ¬ StoresBefore c := by
  induction c with
  | nil => simp [peepholeBody]
  | loop body rest _ ih => simp [peepholeBody, ih]
  | leaf op rest ih =>
    rw [peepholeBody, storesBefore_leaf]
    split
    · next drops =>
      -- The store is missing from what is left.
      have fewer : (peepholeBody rest).total (fun _ => 1) 1 ≤ rest.total (fun _ => 1) 1 :=
        total_peepholeBody_le rest
      refine iff_of_false (fun same => ?_) (fun h => h (.inl (drops_iff.1 drops)))
      rw [same, Code.total] at fewer
      omega
    · next keeps =>
      rw [drops_iff] at keeps
      simp [ih, keeps]

/-! ### Whole code -/

theorem innerBodies_peephole (c : Packed) :
    (Pass.peephole.onBody c).innerBodies = c.innerBodies := by
  show (peepholeBody c).innerBodies = c.innerBodies
  fun_induction peepholeBody c with
  | case1 => rfl
  | case2 body rest ih => rw [Code.innerBodies, ih, Code.innerBodies]
  | case3 op rest _ ih => exact ih
  | case4 op rest _ ih => exact ih

theorem storesBefore_peephole (c : Packed) :
    StoresBefore (Pass.peephole.apply c) ↔ StoresTwice c := by
  obtain ⟨body, same, rows⟩ := Pass.peephole.apply_eq_onBody c
  have twice : StoresTwice body ↔ StoresTwice c := by simp only [StoresTwice, rows]
  rw [same]
  exact storesBefore_peepholeBody.trans twice

/-- **What one folding leaves to fold.** Folding packed code of level two once more changes nothing
exactly if in none of its bodies a store, an addition or a clearing, stands right before a clearing.
In one of them a store does exactly if, when clearings were recognized in the code of level one, a
store and an addition stood right before a clearing in one of the bodies. -/
theorem peephole_again (p : Program) :
    (Pass.peephole.apply (optimize 2 p) = optimize 2 p ↔
        ∀ body ∈ (optimize 2 p).bodies, ¬ StoresBefore body) ∧
      ((∃ body ∈ (optimize 2 p).bodies, StoresBefore body) ↔
        ∃ body ∈ (Pass.clear.apply (optimize 1 p)).bodies, StoresTwice body) := by
  have passes : optimize 2 p = Pass.peephole.apply (Pass.clear.apply (optimize 1 p)) := rfl
  constructor
  · rw [Pass.apply_eq_self_iff innerBodies_peephole]
    exact forall₂_congr fun body _ => peepholeBody_eq_self_iff
  · rw [passes, Pass.exists_mem_bodies_apply innerBodies_peephole]
    simp only [storesBefore_peephole]

/-- Of the clearing and the addition before the second clearing only the addition is dropped. -/
theorem storesBefore_clearTwice :
    let p : Program := .loop (.leaf .decrement .nil) <| .leaf .increment <|
      .loop (.leaf .decrement .nil) .nil
    optimize 2 p = .leaf .clear (.leaf .clear .nil) ∧ StoresBefore (optimize 2 p) ∧
      Pass.peephole.apply (optimize 2 p) = .leaf .clear .nil := by
  intro p
  have code : optimize 2 p = .leaf .clear (.leaf .clear .nil) := optimize_eq 2 p
  rw [code, Pass.apply_eq_transform]
  exact ⟨rfl, ⟨.clear, rfl, by simp⟩, rfl⟩

end TapeLang.Packed
