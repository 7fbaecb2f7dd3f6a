import TapeLang.Proofs.Passes
import TapeLang.Proofs.Slots

/-! What passes never add to.

Give each operation a weight and each loop another. Merging runs, reducing amounts, clearing and
dropping stores never make the weights of all operations and loops together larger, as long as a sum
weighs no more than its parts and clearing a cell no more than the loop it replaces
(`total_apply_le`). The number of slots is such a weight, and so are the sizes of all operands and
the number of operations without a slot. So whatever the level, the packed code of a program
that is not absurdly long can be lowered (`lower_optimize`). -/
namespace TapeLang

namespace Code
variable {α β : Type}

/-- The weights of all leaves and of all loops. -/
def total (weight : α → Nat) (each : Nat) : Code α → Nat
  | nil => 0
  | leaf a rest => weight a + rest.total weight each
  | loop body rest => each + body.total weight each + rest.total weight each

variable {weight : α → Nat} {each : Nat}

theorem total_le_size {bound : Nat} (leaves : ∀ a, weight a ≤ bound) (loops : each ≤ bound)
    (c : Code α) : c.total weight each ≤ bound * c.size := by
  induction c with
  | nil => exact Nat.le_refl 0
  | leaf a rest ih =>
    have := leaves a
    simp only [total, size, Nat.mul_add, Nat.mul_one]
    omega
  | loop body rest ihb ihr =>
    simp only [total, size, Nat.mul_add, Nat.mul_one]
    omega

theorem size_eq_total (c : Code α) : c.size = c.total (fun _ => 1) 1 := by
  induction c with
  | nil => rfl
  | leaf a rest ih => rw [size, total, ih, Nat.add_comm]
  | loop body rest ihb ihr =>
    simp only [size, total, ihb, ihr]
    omega

theorem total_le_total {each each' : Nat} (le : each ≤ each') (c : Code α) :
    c.total weight each ≤ c.total weight each' := by
  induction c with
  | nil => exact Nat.le_refl 0
  | leaf a rest ih => exact Nat.add_le_add_left ih _
  | loop body rest ihb ihr => exact Nat.add_le_add (Nat.add_le_add le ihb) ihr

/-- No leaf weighs more than the whole. -/
theorem all_of_total_le {test : α → Bool} {bound : Nat}
    (light : ∀ a, weight a ≤ bound → test a = true) {c : Code α}
    (le : c.total weight each ≤ bound) : c.all test = true := by
  induction c with
  | nil => rfl
  | leaf a rest ih =>
    simp only [total] at le
    simp only [all, light a (by omega), ih (by omega), Bool.and_self]
  | loop body rest ihb ihr =>
    simp only [total] at le
    simp only [all, ihb (by omega), ihr (by omega), Bool.and_self]

/-- Changing every body adds nothing if it adds nothing to each body. -/
theorem total_transform_le {onBody : Code α → Code α}
    (h : ∀ body, (onBody body).total weight each ≤ body.total weight each) (c : Code α) :
    (c.transform id onBody).total weight each ≤ c.total weight each := by
  have inside : (c.transformInside id onBody).total weight each ≤ c.total weight each := by
    induction c with
    | nil => exact Nat.le_refl 0
    | leaf a rest ih => exact Nat.add_le_add_left ih _
    | loop body rest ihb ihr =>
      have := h (body.transformInside id onBody)
      simp only [transformInside, total]
      omega
  exact Nat.le_trans (h _) inside

theorem total_map (weight : β → Nat) (onLeaf : α → β) (c : Code α) :
    (c.transform onLeaf id).total weight each = c.total (weight ∘ onLeaf) each := by
  show (c.transformInside onLeaf id).total weight each = _
  induction c with
  | nil => rfl
  | leaf a rest ih => simp only [transformInside, total, ih, Function.comp_apply]
  | loop body rest ihb ihr => simp only [transformInside, total, ihb, ihr, id_eq]

end Code

namespace Packed

/-- Weights that what a pass replaces has at least. -/
structure Kept (weight : Op → Nat) (each : Nat) : Prop where
  add : ∀ first second,
    weight (.add (first + second)) ≤ weight (.add first) + weight (.add second)
  move : ∀ first second,
    weight (.move (first + second)) ≤ weight (.move first) + weight (.move second)
  reduce : ∀ amount, weight (.add (reduceAmount amount)) ≤ weight (.add amount)
  clear : ∀ amount, weight .clear ≤ each + weight (.add amount)

variable {weight : Op → Nat} {each : Nat}

theorem total_closeOnto_le (run : Run) (rest : Packed) :
    (run.closeOnto rest).total weight each ≤ (run.standOnto rest).total weight each := by
  cases run with
  | none => exact Nat.le_refl _
  | adding sum => exact Nat.le_refl _
  | moving sum =>
    simp only [Run.closeOnto, Run.standOnto, Code.total]
    split
    · exact Nat.le_add_left _ _
    · exact Nat.le_refl _

theorem total_standOnto (run : Run) (rest : Packed) :
    (run.standOnto rest).total weight each =
      (run.standOnto .nil).total weight each + rest.total weight each := by
  cases run with
  | none => exact (Nat.zero_add _).symm
  | adding sum => rfl
  | moving sum => rfl

theorem total_packFrom_le (kept : Kept weight each) (run : Run) (body : Packed) :
    (packFrom run body).total weight each ≤ (run.standOnto body).total weight each := by
  have close : ∀ (run : Run) {rest rest' : Packed},
      rest'.total weight each ≤ rest.total weight each →
      (run.closeOnto rest').total weight each ≤ (run.standOnto rest).total weight each := by
    intro run rest rest' le
    have closed : (run.closeOnto rest').total weight each ≤ _ := total_closeOnto_le run rest'
    rw [total_standOnto] at closed ⊢
    omega
  fun_induction packFrom run body with
  | case1 run => exact total_closeOnto_le run .nil
  | case2 run body rest ih => exact close run (Nat.add_le_add_left ih _)
  | case3 sum amount rest ih =>
    have := kept.add sum amount
    simp only [Run.standOnto, Code.total] at ih ⊢
    omega
  | case4 sum distance rest ih =>
    have := kept.move sum distance
    simp only [Run.standOnto, Code.total] at ih ⊢
    omega
  | case5 run amount rest _ ih => exact close run ih
  | case6 run distance rest _ ih => exact close run ih
  | case7 run op rest _ _ _ _ ih => exact close run (Nat.add_le_add_left ih _)

theorem total_reduceBody_le (kept : Kept weight each) (body : Packed) :
    (reduceBody body).total weight each ≤ body.total weight each := by
  fun_induction reduceBody body with
  | case1 => exact Nat.le_refl _
  | case2 body rest ih => exact Nat.add_le_add_left ih _
  | case3 amount rest ih => exact Nat.add_le_add (kept.reduce amount) ih
  | case4 op rest _ ih => exact Nat.add_le_add_left ih _

theorem total_clearBody_le (kept : Kept weight each) (body : Packed) :
    (clearBody body).total weight each ≤ body.total weight each := by
  fun_induction clearBody body with
  | case1 => exact Nat.le_refl _
  | case2 body rest h ih =>
    obtain ⟨amount, -, rfl⟩ := eq_count_of_counts h
    have := kept.clear amount
    simp only [Code.total]
    omega
  | case3 body rest _ ih => exact Nat.add_le_add_left ih _
  | case4 op rest ih => exact Nat.add_le_add_left ih _

theorem total_peepholeBody_le (body : Packed) :
    (peepholeBody body).total weight each ≤ body.total weight each := by
  fun_induction peepholeBody body with
  | case1 => exact Nat.le_refl _
  | case2 body rest ih => exact Nat.add_le_add_left ih _
  | case3 op rest _ ih => exact Nat.le_trans ih (Nat.le_add_left _ _)
  | case4 op rest _ ih => exact Nat.add_le_add_left ih _

/-! ### All passes -/

theorem total_apply_le (kept : Kept weight each) (pass : Pass) (c : Packed) :
    (pass.apply c).total weight each ≤ c.total weight each := by
  rw [Pass.apply, Code.walk_eq_transform]
  refine Code.total_transform_le (fun body => ?_) c
  cases pass with
  | pack => exact total_packFrom_le kept .none body
  | reduce => exact total_reduceBody_le kept body
  | clear => exact total_clearBody_le kept body
  | peephole => exact total_peepholeBody_le body

theorem total_applyAll_le (kept : Kept weight each) (passes : List Pass) (c : Packed) :
    (applyAll passes c).total weight each ≤ c.total weight each := by
  induction passes generalizing c with
  | nil => exact Nat.le_refl _
  | cons pass passes ih => exact Nat.le_trans (ih (pass.apply c)) (total_apply_le kept pass c)

/-- **No level adds to the weight of a program.** -/
theorem total_optimize_le (kept : Kept weight each) (level : Int) (p : Program) :
    (optimize level p).total weight each ≤ p.total (weight ∘ Op.ofCommand) each := by
  refine Nat.le_trans (total_applyAll_le kept _ (ofProgram p)) (Nat.le_of_eq ?_)
  rw [ofProgram, Code.walk_eq_transform, Code.total_map]

/-! ### Weights that matter for lowering -/

def operandSize : Op → Nat
  | .add amount => amount.natAbs
  | .move distance => distance.natAbs
  | _ => 0

/-- Whether an operation has no slot, as a number. -/
def slotless (op : Op) : Nat := if op.isPacked then 0 else 1

theorem slots_eq_total (c : Packed) : c.slots = c.total (fun _ => 1) 2 := by
  induction c with
  | nil => rfl
  | leaf op rest ih =>
    simp only [slots, Code.total, ih]
    omega
  | loop body rest ihb ihr =>
    simp only [slots, Code.total, ihb, ihr]
    omega

theorem kept_slots : Kept (fun _ => 1) 2 where
  add _ _ := by omega
  move _ _ := by omega
  reduce _ := Nat.le_refl 1
  clear _ := by omega

theorem natAbs_reduceAmount_le (amount : Int) : (reduceAmount amount).natAbs ≤ amount.natAbs := by
  simp only [reduceAmount]
  split <;> omega

theorem kept_operandSize : Kept operandSize 0 where
  add := Int.natAbs_add_le
  move := Int.natAbs_add_le
  reduce := natAbs_reduceAmount_le
  clear _ := Nat.zero_le _

theorem kept_slotless : Kept slotless 0 where
  add _ _ := Nat.zero_le _
  move _ _ := Nat.zero_le _
  reduce _ := Nat.le_refl _
  clear _ := Nat.zero_le _

theorem isPacked_optimize (level : Int) (p : Program) :
    (optimize level p).all Op.isPacked = true := by
  have started : p.total (slotless ∘ Op.ofCommand) 0 ≤ 0 * p.size :=
    Code.total_le_size (fun c => by cases c <;> decide) (Nat.le_refl 0) p
  have stayed := Nat.le_trans (total_optimize_le kept_slotless level p) started
  refine Code.all_of_total_le (fun op le => ?_) stayed
  cases packed : op.isPacked with
  | true => rfl
  | false =>
    simp only [slotless, packed] at le
    simp at le

/-- No level has more slots than one for each command and two for each loop. -/
theorem slots_optimize_le_total (level : Int) (p : Program) :
    (optimize level p).slots ≤ p.total (fun _ => 1) 2 := by
  rw [slots_eq_total]
  exact total_optimize_le kept_slots level p

theorem operands_optimize_le (level : Int) (p : Program) :
    (optimize level p).total operandSize 0 ≤ p.size := by
  have started : p.total (operandSize ∘ Op.ofCommand) 0 ≤ 1 * p.size :=
    Code.total_le_size (fun c => by cases c <;> decide) (Nat.zero_le 1) p
  rw [Nat.one_mul] at started
  exact Nat.le_trans (total_optimize_le kept_operandSize level p) started

theorem operandsFit_of_total_le {c : Packed} {bound : Nat} (le : c.total operandSize 0 ≤ bound)
    (small : fitsWord bound = true) : Flat.operandsFit c = true := by
  simp only [fitsWord, Bool.and_eq_true, decide_eq_true_eq] at small
  refine Code.all_of_total_le (fun op le => ?_) le
  cases op with
  | add amount =>
    simp only [operandSize] at le
    simp only [Flat.slotOf, fitsWord, Bool.and_eq_true, decide_eq_true_eq]
    omega
  | move distance =>
    simp only [operandSize] at le
    simp only [Flat.slotOf, fitsWord, Bool.and_eq_true, decide_eq_true_eq]
    omega
  | plain c => cases c <;> rfl
  | _ => rfl

/-- **Whatever the level, a program can be lowered**, if jumps can go past a slot for each of its
commands and two for each of its loops. -/
theorem lower_optimize_of_room (level : Int) {p : Program}
    (room : fitsWord (p.total (fun _ => 1) 2 : Nat) = true) :
    ∃ f, (optimize level p).lower? = some f := by
  have size : p.size ≤ p.total (fun _ => 1) 2 := by
    rw [Code.size_eq_total]
    exact Code.total_le_total (by decide) p
  refine Flat.exists_lower? (isPacked_optimize level p) ?_ ?_
  · exact operandsFit_of_total_le (operands_optimize_le level p) (Flat.fitsWord_of_le size room)
  · exact Flat.fitsWord_of_le (slots_optimize_le_total level p) room

/-- Two slots for each command and loop are enough. -/
theorem lower_optimize (level : Int) {p : Program} (short : fitsWord (2 * p.size : Nat) = true) :
    ∃ f, (optimize level p).lower? = some f :=
  lower_optimize_of_room level
    (Flat.fitsWord_of_le (Code.total_le_size (fun _ => by decide) (Nat.le_refl 2) p) short)

end Packed

end TapeLang
