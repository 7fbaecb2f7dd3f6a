import TapeLang.Code.Count
import TapeLang.Proofs.Bodies
import TapeLang.Proofs.Weights

/-! The size of packed code, and the commands left in it.

The number of operations and loops at all depths is a weight that no pass adds to, so a higher level
counts no more of them than a lower one does. What no pass adds or drops or moves past another are
the outputs and inputs: the passes work on additions, moves and clearings only, and the loops that
become clearings hold nothing else (`commands_onBody`). What is so of each body is so of the code as
a whole (`Code.filterMap_leaves_transform`). -/
namespace TapeLang

/-- Whether a command writes or reads a byte. -/
def Command.exchanges : Command → Bool
  | output => true
  | input => true
  | _ => false

/-- The command that an operation is, if it is one as it stands. -/
def Op.command? : Op → Option Command
  | plain k => some k
  | _ => none

namespace Packed

/-- The commands that stand as they are, at all depths and in the order of the source. -/
def commands (c : Packed) : List Command := c.leaves.filterMap Op.command?

variable {c rest body : Packed} {op : Op}

@[simp] theorem commands_nil : commands .nil = [] := rfl

@[simp] theorem commands_loop : commands (.loop body rest) = body.commands ++ rest.commands :=
  List.filterMap_append

@[simp] theorem commands_leaf :
    commands (.leaf op rest) = op.command?.toList ++ rest.commands := by
  simp only [commands, Code.leaves, List.filterMap_cons]
  cases op.command? <;> rfl

/-! ### Commands stay in order -/

@[simp] theorem commands_closeOnto (run : Run) (rest : Packed) :
    (run.closeOnto rest).commands = rest.commands := by
  cases run with
  | none => rfl
  | adding sum => rfl
  | moving sum =>
    rw [Run.closeOnto]
    split <;> rfl

theorem commands_packFrom (run : Run) (body : Packed) :
    (packFrom run body).commands = body.commands := by
  fun_induction packFrom run body with
  | case1 run => exact commands_closeOnto run .nil
  | case2 run body rest ih => simp only [commands_closeOnto, commands_loop, ih]
  | case3 sum amount rest ih => exact ih
  | case4 sum distance rest ih => exact ih
  | case5 run amount rest _ ih => exact (commands_closeOnto run _).trans ih
  | case6 run distance rest _ ih => exact (commands_closeOnto run _).trans ih
  | case7 run op rest _ _ _ _ ih => simp only [commands_closeOnto, commands_leaf, ih]

theorem commands_reduceBody (body : Packed) : (reduceBody body).commands = body.commands := by
  fun_induction reduceBody body with
  | case1 => rfl
  | case2 body rest ih => simp only [commands_loop, ih]
  | case3 amount rest ih => exact ih
  | case4 op rest _ ih => simp only [commands_leaf, ih]

theorem commands_clearBody (body : Packed) : (clearBody body).commands = body.commands := by
  fun_induction clearBody body with
  | case1 => rfl
  | case2 body rest counting ih =>
    -- The loop that goes holds one addition, and no command.
    obtain ⟨amount, -, rfl⟩ := eq_count_of_counts counting
    exact ih
  | case3 body rest _ ih => simp only [commands_loop, ih]
  | case4 op rest ih => simp only [commands_leaf, ih]

theorem command?_of_stores (h : stores op = true) : op.command? = none := by
  cases op with
  | plain k => cases h
  | _ => rfl

theorem commands_peepholeBody (body : Packed) : (peepholeBody body).commands = body.commands := by
  fun_induction peepholeBody body with
  | case1 => rfl
  | case2 body rest ih => simp only [commands_loop, ih]
  | case3 op rest dropped ih =>
    rw [Bool.and_eq_true] at dropped
    rw [ih, commands_leaf, command?_of_stores dropped.1]
    rfl
  | case4 op rest _ ih => simp only [commands_leaf, ih]

theorem commands_onBody (pass : Pass) (body : Packed) :
    (pass.onBody body).commands = body.commands := by
  cases pass with
  | pack => exact commands_packFrom .none body
  | reduce => exact commands_reduceBody body
  | clear => exact commands_clearBody body
  | peephole => exact commands_peepholeBody body

theorem commands_apply (pass : Pass) (c : Packed) : (pass.apply c).commands = c.commands := by
  rw [Pass.apply_eq_transform]
  exact Code.filterMap_leaves_transform (commands_onBody pass) c

theorem commands_applyAll (passes : List Pass) (c : Packed) :
    (applyAll passes c).commands = c.commands := by
  induction passes generalizing c with
  | nil => rfl
  | cons pass passes ih => exact (ih (pass.apply c)).trans (commands_apply pass c)

/-- Outputs and inputs stay as they are; for the other commands there are operations. -/
theorem command?_comp_ofCommand :
    Op.command? ∘ Op.ofCommand = Option.guard Command.exchanges := by
  funext k
  cases k <;> rfl

theorem commands_ofProgram (p : Program) :
    (ofProgram p).commands = p.leaves.filter Command.exchanges := by
  rw [ofProgram, Code.walk_eq_transform, commands, Code.leaves_map, List.filterMap_map,
    command?_comp_ofCommand, List.filterMap_eq_filter]

/-! ### Sizes -/

theorem kept_size : Kept (fun _ => 1) 1 where
  add _ _ := by omega
  move _ _ := by omega
  reduce _ := Nat.le_refl 1
  clear _ := by omega

theorem size_applyAll_le (passes : List Pass) (c : Packed) : (applyAll passes c).size ≤ c.size := by
  rw [Code.size_eq_total, Code.size_eq_total]
  exact total_applyAll_le kept_size passes c

theorem size_ofProgram (p : Program) : (ofProgram p).size = p.size := by
  rw [ofProgram, Code.walk_eq_transform, Code.size_eq_total, Code.total_map, Code.size_eq_total]
  rfl

end Packed

open Packed in
/-- **No level makes a program larger.** What is counted of code are its leaves and loops at all
depths. Of the packed code of level zero there are as many as of the program, and a higher level
leaves no more than a lower one; the outputs and inputs are at every level those of the program, in
the same order. Of each pass it is so for all packed code: it leaves no more operations and loops,
and the same commands in the same order. -/
theorem passes_never_enlarge :
    (∀ {α : Type} (c : Code α), c.count = c.size) ∧
    (∀ p : Program, (optimize 0 p).count = p.count ∧
      (optimize 2 p).count ≤ (optimize 1 p).count ∧ (optimize 1 p).count ≤ (optimize 0 p).count ∧
      ∀ level, (optimize level p).commands = p.leaves.filter Command.exchanges) ∧
    ∀ (pass : Pass) (c : Packed),
      (pass.apply c).count ≤ c.count ∧ (pass.apply c).commands = c.commands := by
  refine ⟨Code.count_eq_size, ?_⟩
  simp only [Code.count_eq_size]
  have higher {level level' : Int} (le : level ≤ level') (p : Program) :
      (optimize level' p).size ≤ (optimize level p).size := by
    obtain ⟨more, later⟩ := exists_optimize_eq_applyAll le p
    rw [later]
    exact size_applyAll_le more _
  constructor
  · exact fun p => ⟨size_ofProgram p, higher (by decide) p, higher (by decide) p, fun level =>
      (commands_applyAll (passesAt level) (ofProgram p)).trans (commands_ofProgram p)⟩
  · exact fun pass c => ⟨size_applyAll_le [pass] c, commands_apply pass c⟩

end TapeLang
