import TapeLang.Proofs.Clearing
import TapeLang.Proofs.Packing

/-! The shape of packed code from level one on.

Packing leaves moves apart and on their way somewhere, reducing leaves amounts small, and
recognizing clearings leaves no loop that only counts. The passes after each of these could spoil
what it has left. They do not, since they put nothing new next to anything but clearings: a row of
operations without a clearing that stands in a body afterwards has stood there before
(`Pass.AddsNoRow`). No move goes further than the program has commands, since the sizes of all
operands together never grow. So all operands fit into words, and lowering fails only for want of
room for the jumps (`optimize_shape`). -/
namespace TapeLang

/-- A pass puts operations in a row only where they stood so, or where one of them clears. -/
def Pass.AddsNoRow (pass : Pass) : Prop :=
  ∀ (c : Packed) (op : Op) (row : List Op), .clear ∉ op :: row →
    (pass.onBody c).HasRow (op :: row) → c.HasRow (op :: row)

namespace Packed

/-- The shape of a body, given a bound for its moves: no two moves meet, none goes nowhere, none
goes further than the bound, and the amounts added are the least ones modulo 256. -/
structure Shaped (bound : Nat) (c : Packed) : Prop extends MovesPacked c where
  distances : ∀ n : Int, c.HasRow [.move n] → n.natAbs ≤ bound
  amounts : ∀ n : Int, c.HasRow [.add n] → -127 ≤ n ∧ n ≤ 128

variable {c rest body : Packed} {op : Op} {row : List Op} {bound : Nat}

/-! ### Small amounts -/

theorem bounds_reduceAmount (amount : Int) :
    -127 ≤ reduceAmount amount ∧ reduceAmount amount ≤ 128 := by
  simp only [reduceAmount]
  split <;> omega

/-- Every amount in a reduced body is a reduced one. -/
theorem eq_reduceAmount_of_hasRow {n : Int} (h : (reduceBody c).HasRow [.add n]) :
    ∃ amount, n = reduceAmount amount := by
  fun_induction reduceBody c with
  | case1 => simp at h
  | case2 body rest ih => exact ih (by simpa using h)
  | case3 amount rest ih =>
    rcases Code.hasRow_leaf.1 h with ⟨same, -⟩ | later
    · cases same
      exact ⟨amount, rfl⟩
    · exact ih later
  | case4 op rest noAdd ih =>
    rcases Code.hasRow_leaf.1 h with ⟨same, -⟩ | later
    · exact absurd same (noAdd n)
    · exact ih later

theorem amounts_reduce {n : Int} (h : (Pass.reduce.apply c).HasRow [.add n]) :
    -127 ≤ n ∧ n ≤ 128 := by
  obtain ⟨body, same, -⟩ := Pass.reduce.apply_eq_onBody c
  rw [same] at h
  obtain ⟨amount, rfl⟩ := eq_reduceAmount_of_hasRow h
  exact bounds_reduceAmount amount

/-! ### Rows without a clearing -/

theorem startsWith_of_clearBody (plain : .clear ∉ row) (h : (clearBody c).StartsWith row) :
    c.StartsWith row := by
  induction row generalizing c with
  | nil => exact Code.startsWith_nil c
  | cons op row ih =>
    rw [List.mem_cons, not_or] at plain
    cases c with
    | nil => exact absurd h Code.not_startsWith_of_nil
    | leaf op' rest =>
      obtain ⟨same, behind⟩ := Code.startsWith_leaf.1 h
      exact Code.startsWith_leaf.2 ⟨same, ih plain.2 behind⟩
    | loop body rest =>
      rw [clearBody] at h
      split at h
      · exact absurd (Code.startsWith_leaf.1 h).1 plain.1
      · exact absurd h Code.not_startsWith_of_loop

theorem addsNoRow_clear : Pass.clear.AddsNoRow := by
  intro c op row plain h
  replace h : (clearBody c).HasRow (op :: row) := h
  fun_induction clearBody c with
  | case1 => exact h
  | case2 body rest _ ih =>
    rcases Code.hasRow_leaf.1 h with ⟨rfl, -⟩ | later
    · exact absurd List.mem_cons_self plain
    · exact Code.hasRow_loop.2 (ih later)
  | case3 body rest _ ih => exact Code.hasRow_loop.2 (ih (Code.hasRow_loop.1 h))
  | case4 op' rest ih =>
    rcases Code.hasRow_leaf.1 h with ⟨same, behind⟩ | later
    · have plain := List.not_mem_of_not_mem_cons plain
      exact Code.hasRow_leaf.2 (.inl ⟨same, startsWith_of_clearBody plain behind⟩)
    · exact Code.hasRow_leaf.2 (.inr (ih later))

theorem startsWith_of_peepholeBody (plain : .clear ∉ row) (h : (peepholeBody c).StartsWith row) :
    c.StartsWith row := by
  fun_induction peepholeBody c generalizing row with
  | case1 => exact h
  | case2 body rest _ =>
    cases row with
    | nil => exact Code.startsWith_nil _
    | cons a row => exact absurd h Code.not_startsWith_of_loop
  | case3 op rest drops ih =>
    -- The clearing behind the store that is dropped would start the row.
    cases row with
    | nil => exact Code.startsWith_nil _
    | cons a row =>
      obtain ⟨more, rfl⟩ := (drops_iff.1 drops).2
      obtain ⟨rfl, -⟩ := Code.startsWith_leaf.1 (ih plain h)
      exact absurd List.mem_cons_self plain
  | case4 op rest _ ih =>
    cases row with
    | nil => exact Code.startsWith_nil _
    | cons a row =>
      obtain ⟨same, behind⟩ := Code.startsWith_leaf.1 h
      exact Code.startsWith_leaf.2 ⟨same, ih (List.not_mem_of_not_mem_cons plain) behind⟩

theorem addsNoRow_peephole : Pass.peephole.AddsNoRow := by
  intro c op row plain h
  replace h : (peepholeBody c).HasRow (op :: row) := h
  fun_induction peepholeBody c with
  | case1 => exact h
  | case2 body rest ih => exact Code.hasRow_loop.2 (ih (Code.hasRow_loop.1 h))
  | case3 op' rest _ ih => exact Code.hasRow_leaf.2 (.inr (ih h))
  | case4 op' rest _ ih =>
    rcases Code.hasRow_leaf.1 h with ⟨same, behind⟩ | later
    · have plain := List.not_mem_of_not_mem_cons plain
      exact Code.hasRow_leaf.2 (.inl ⟨same, startsWith_of_peepholeBody plain behind⟩)
    · exact Code.hasRow_leaf.2 (.inr (ih later))

theorem hasRow_of_apply {pass : Pass} (adds : pass.AddsNoRow) (plain : .clear ∉ op :: row)
    (h : (pass.apply c).HasRow (op :: row)) : c.HasRow (op :: row) := by
  obtain ⟨body, same, rows⟩ := pass.apply_eq_onBody c
  rw [same] at h
  exact (rows op row).1 (adds body op row plain h)

/-- **A pass that puts nothing new in a row spoils no shape.** -/
theorem Shaped.apply {pass : Pass} (adds : pass.AddsNoRow) (shaped : Shaped bound c) :
    Shaped bound (pass.apply c) where
  apart m n row := shaped.apart m n (hasRow_of_apply adds (by simp) row)
  moving row := shaped.moving (hasRow_of_apply adds (by simp) row)
  distances n row := shaped.distances n (hasRow_of_apply adds (by simp) row)
  amounts n row := shaped.amounts n (hasRow_of_apply adds (by simp) row)

/-! ### Loops that only count -/

theorem innerBodies_clear_subset (c : Packed) :
    (Pass.clear.onBody c).innerBodies ⊆ c.innerBodies := by
  show (clearBody c).innerBodies ⊆ c.innerBodies
  fun_induction clearBody c with
  | case1 => exact List.Subset.refl _
  | case2 body rest _ ih =>
    exact List.subset_cons_of_subset body (List.subset_append_of_subset_right _ ih)
  | case3 body rest _ ih =>
    refine List.cons_subset_cons body (List.append_subset.2 ⟨List.subset_append_left .., ?_⟩)
    exact List.subset_append_of_subset_right _ ih
  | case4 op rest ih => exact ih

/-- After clearings were recognized no loop only counts. -/
theorem not_counts_of_mem_clear (mem : body ∈ (Pass.clear.apply c).innerBodies) :
    counts body = false := by
  rw [Pass.apply_eq_transform] at mem
  induction c with
  | nil => exact nomatch mem
  | leaf op rest ih => exact ih mem
  | loop inner rest ihb ihr =>
    have here : (Code.loop inner rest).transform id clearBody =
        if counts (inner.transform id clearBody) then .leaf .clear (rest.transform id clearBody)
        else .loop (inner.transform id clearBody) (rest.transform id clearBody) := rfl
    replace mem : body ∈ ((Code.loop inner rest).transform id clearBody).innerBodies := mem
    rw [here] at mem
    split at mem
    · exact ihr mem
    · next other =>
      simp only [Code.innerBodies, List.mem_cons, List.mem_append] at mem
      rcases mem with rfl | mem | mem
      · exact Bool.eq_false_iff.2 other
      · exact ihb mem
      · exact ihr mem

theorem peepholeBody_eq_nil_iff : peepholeBody c = .nil ↔ c = .nil := by
  refine ⟨fun h => ?_, fun h => by rw [h, peepholeBody]⟩
  fun_induction peepholeBody c with
  | case1 => rfl
  | case2 body rest _ => cases h
  | case3 op rest drops ih =>
    have clears := (drops_iff.1 drops).2
    rw [ih h] at clears
    exact absurd clears Code.not_startsWith_of_nil
  | case4 op rest _ _ => cases h

/-- A folded body that is one operation, and no clearing, has been so before. -/
theorem eq_of_peepholeBody_eq_leaf (plain : op ≠ .clear) (h : peepholeBody c = .leaf op .nil) :
    c = .leaf op .nil := by
  obtain ⟨rest, rfl⟩ : c.StartsWith [op] :=
    startsWith_of_peepholeBody (by simpa using plain.symm) (h ▸ ⟨.nil, rfl⟩)
  show Code.leaf op rest = .leaf op .nil
  replace h : peepholeBody (.leaf op rest) = .leaf op .nil := h
  rw [peepholeBody] at h
  split at h
  · next drops =>
    have start : rest.StartsWith [op] :=
      startsWith_of_peepholeBody (by simpa using plain.symm) (h ▸ ⟨.nil, rfl⟩)
    obtain ⟨more, rfl⟩ := (drops_iff.1 drops).2
    exact absurd (Code.startsWith_leaf.1 start).1.symm plain
  · rw [peepholeBody_eq_nil_iff.1 (Code.leaf.inj h).2]

/-- Folding makes no loop that only counts. -/
theorem counts_of_peephole (h : counts (Pass.peephole.apply c) = true) : counts c = true := by
  rw [Pass.apply_eq_transform] at h
  obtain ⟨amount, unit, same⟩ := eq_count_of_counts h
  rw [same] at h
  have inside : c.transformInside id peepholeBody = .leaf (.add amount) .nil :=
    eq_of_peepholeBody_eq_leaf (by simp) same
  match c, inside with
  | .leaf _ .nil, rfl => exact h

/-! ### Levels -/

variable {level : Int} {p : Program}

theorem optimize_of_two_le (le : 2 ≤ level) (p : Program) :
    optimize level p = Pass.peephole.apply (Pass.clear.apply (optimize 1 p)) := by
  have none : ¬ level ≤ 0 := by omega
  have one : level ≠ 1 := by omega
  simp only [optimize, passesAt, if_neg none, if_neg one]
  rfl

theorem shaped_of_mem_optimize_one (mem : body ∈ (optimize 1 p).bodies) : Shaped p.size body where
  toMovesPacked := movesPacked_of_mem_optimize_one mem
  distances n row := by
    have near : (optimize 1 p).all (fun op => decide (operandSize op ≤ p.size)) = true :=
      Code.all_of_total_le (fun _ le => decide_eq_true le) (operands_optimize_le 1 p)
    have here := Code.leaves_subset_of_mem_bodies mem (Code.mem_leaves_of_hasRow row)
    exact of_decide_eq_true (Code.all_eq_true_iff.1 near _ here)
  amounts n row := by
    rw [optimize_one, Pass.bodies_apply innerBodies_reduce, List.mem_map] at mem
    obtain ⟨source, -, rfl⟩ := mem
    exact amounts_reduce row

theorem innerBodies_peephole_subset (c : Packed) :
    (Pass.peephole.onBody c).innerBodies ⊆ c.innerBodies :=
  fun _ mem => innerBodies_peephole c ▸ mem

theorem shaped_of_mem_optimize (packs : 1 ≤ level) (mem : body ∈ (optimize level p).bodies) :
    Shaped p.size body := by
  rcases Int.lt_or_le level 2 with below | two
  · obtain rfl : level = 1 := by omega
    exact shaped_of_mem_optimize_one mem
  · rw [optimize_of_two_le two] at mem
    obtain ⟨cleared, inside, rfl⟩ := Pass.exists_of_mem_bodies_apply innerBodies_peephole_subset mem
    obtain ⟨source, stems, rfl⟩ := Pass.exists_of_mem_bodies_apply innerBodies_clear_subset inside
    exact ((shaped_of_mem_optimize_one stems).apply addsNoRow_clear).apply addsNoRow_peephole

theorem not_counts_of_mem_optimize (clears : 2 ≤ level)
    (mem : body ∈ (optimize level p).innerBodies) : counts body = false := by
  rw [optimize_of_two_le clears] at mem
  obtain ⟨source, inside, rfl⟩ :=
    Pass.exists_of_mem_innerBodies_apply innerBodies_peephole_subset mem
  refine Bool.eq_false_iff.2 fun counting => ?_
  exact Bool.eq_false_iff.1 (not_counts_of_mem_clear inside) (counts_of_peephole counting)

end Packed

/-- A program is written with one character for each command and two for each loop. -/
theorem Program.length_spelling (p : Program) : p.spelling.length = p.total (fun _ => 1) 2 := by
  induction p with
  | nil => rfl
  | leaf c rest ih =>
    rw [spelling_leaf, List.length_cons, ih, Code.total, Nat.add_comm]
  | loop body rest ihb ihr =>
    simp only [spelling_loop, List.length_cons, List.length_append, ihb, ihr, Code.total]
    omega

open Packed in
/-- **The shape of packed code.** From level one on no two moves meet in any body of the packed code
of a program, no move goes nowhere or further than the program has commands and loops, and every
amount added is the least one modulo 256; from level two on no loop only counts its cell by one. The
operands of a program of fewer than `2 ^ 63` commands and loops all fit into words. Jumps do not go
by that number, since a loop has two slots: the program is lowered if it is written with fewer
characters than that, of which a loop has two as well. -/
theorem optimize_shape {level : Int} (packs : 1 ≤ level) (p : Program) :
    (∀ body ∈ (optimize level p).bodies, Shaped p.size body) ∧
      (2 ≤ level → ∀ body ∈ (optimize level p).innerBodies,
        body ≠ .leaf (.add 1) .nil ∧ body ≠ .leaf (.add (-1)) .nil) ∧
      (fitsWord p.size = true → Flat.operandsFit (optimize level p) = true) ∧
      (fitsWord p.spelling.length = true → ∃ f, (optimize level p).lower? = some f) := by
  refine ⟨fun body => shaped_of_mem_optimize packs, fun clears body mem => ?_, fun short => ?_,
    fun short => ?_⟩
  · have other := not_counts_of_mem_optimize clears mem
    constructor
    · rintro rfl
      cases other
    · rintro rfl
      cases other
  · exact operandsFit_of_total_le (operands_optimize_le level p) short
  · rw [p.length_spelling] at short
    exact lower_optimize_of_room level short

/-- Moves that cancel out, a loop that only counts, and an addition that is folded into it:
`>><[-[+]<>]`. -/
def Program.countInside : Program :=
  .leaf .advance <| .leaf .advance <| .leaf .retreat <|
    .loop (.leaf .decrement <| .loop (.leaf .increment .nil) <|
      .leaf .retreat <| .leaf .advance .nil) .nil

open Packed in
theorem optimize_shape_countInside :
    optimize 2 Program.countInside = .leaf (.move 1) (.loop (.leaf .clear .nil) .nil) ∧
      (∀ body ∈ (optimize 2 Program.countInside).bodies, Shaped 9 body) ∧
      (∀ body ∈ (optimize 2 Program.countInside).innerBodies,
        body ≠ .leaf (.add 1) .nil ∧ body ≠ .leaf (.add (-1)) .nil) ∧
      Flat.operandsFit (optimize 2 Program.countInside) = true ∧
      ∃ f, (optimize 2 Program.countInside).lower? = some f := by
  obtain ⟨shaped, counted, operands, lowered⟩ :=
    optimize_shape (show (1 : Int) ≤ 2 by decide) Program.countInside
  have packed : optimize 2 Program.countInside =
      .leaf (.move 1) (.loop (.leaf .clear .nil) .nil) := by
    rw [optimize_eq]
    rfl
  exact ⟨packed, shaped, counted (by decide), operands (by decide), lowered (by decide)⟩

end TapeLang
