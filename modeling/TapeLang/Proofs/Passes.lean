import TapeLang.Op.Pass
import TapeLang.Proofs.Shortening

/-! Passes keep the meaning of packed code.

Each pass shortens every body: what it replaces neither reads nor writes and touches the same cell
at the same point. Runs of additions or of moves are merged one by one; a loop that counts its cell
to zero comes to an end, since each round takes the cell one nearer to zero around the circle of
bytes, and leaves what clearing the cell leaves. Through all nested bodies a pass therefore keeps
every outcome, with the tape, its growths, what is unread and what is written
(`pass_keeps_meaning`). -/
namespace TapeLang
open Code (Shortens)

variable {policy : EndOfInput}

namespace Packed

/-! ### Packing -/

/-- A run as one operation in front of what follows, moves that cancel out included. -/
def Run.standOnto : Run → Packed → Packed
  | none, rest => rest
  | adding sum, rest => .leaf (.add sum) rest
  | moving sum, rest => .leaf (.move sum) rest

theorem standOnto_shortens (run : Run) {rest rest' : Packed}
    (h : Shortens (Op.exec policy) rest rest') :
    Shortens (Op.exec policy) (run.standOnto rest) (run.standOnto rest') := by
  cases run with
  | none => exact h
  | adding sum => exact h.leaf _
  | moving sum => exact h.leaf _

theorem closeOnto_shortens (run : Run) (rest : Packed) :
    Shortens (Op.exec policy) (run.standOnto rest) (run.closeOnto rest) := by
  cases run with
  | none => exact .refl _ _
  | adding sum => exact .refl _ _
  | moving sum =>
    by_cases zero : sum = 0
    · rw [Run.closeOnto, if_pos zero, zero]
      exact .drop fun m => congrArg Outcome.ended m.move_zero
    · rw [Run.closeOnto, if_neg zero]
      exact .refl _ _

theorem merge_adds (first second : Int) (rest : Packed) :
    Shortens (Op.exec policy) (.leaf (.add first) (.leaf (.add second) rest))
      (.leaf (.add (first + second)) rest) :=
  .merge (fun _ => rfl) (fun _ => rfl)
    (fun m => congrArg Outcome.ended (m.adjust_adjust first second).symm)
    (fun m => m.sameStreams_adjust first)

theorem merge_moves (first second : Int) (rest : Packed) :
    Shortens (Op.exec policy) (.leaf (.move first) (.leaf (.move second) rest))
      (.leaf (.move (first + second)) rest) :=
  .merge (fun _ => rfl) (fun _ => rfl)
    (fun m => congrArg Outcome.ended (m.move_move first second).symm) (fun _ => ⟨rfl, rfl⟩)

/-- The packed rest of a body stands for the rest with the run in front of it. -/
theorem packFrom_shortens (run : Run) (body : Packed) :
    Shortens (Op.exec policy) (run.standOnto body) (packFrom run body) := by
  have close : ∀ (run : Run) {rest rest' : Packed}, Shortens (Op.exec policy) rest rest' →
      Shortens (Op.exec policy) (run.standOnto rest) (run.closeOnto rest') :=
    fun run _ _ h => (standOnto_shortens run h).trans (closeOnto_shortens run _)
  fun_induction packFrom run body with
  | case1 run => exact closeOnto_shortens run .nil
  | case2 run body rest ih => exact close run (.loop (.refl _ body) ih)
  | case3 sum amount rest ih => exact (merge_adds sum amount rest).trans ih
  | case4 sum distance rest ih => exact (merge_moves sum distance rest).trans ih
  | case5 run amount rest _ ih => exact close run ih
  | case6 run distance rest _ ih => exact close run ih
  | case7 run op rest _ _ _ _ ih => exact close run (.leaf op ih)

/-! ### Small amounts -/

theorem reduceAmount_emod (amount : Int) : reduceAmount amount % 256 = amount % 256 := by
  simp only [reduceAmount]
  split <;> omega

theorem reduceBody_shortens (body : Packed) :
    Shortens (Op.exec policy) body (reduceBody body) := by
  fun_induction reduceBody body with
  | case1 => exact .refl _ _
  | case2 body rest ih => exact .loop (.refl _ body) ih
  | case3 amount rest ih =>
    refine Shortens.trans (.replace fun m => ?_) (.leaf _ ih)
    exact congrArg Outcome.ended (m.adjust_congr (reduceAmount_emod amount).symm)
  | case4 op rest _ ih => exact .leaf op ih

/-! ### Clearing -/

/-- How many rounds a loop takes that counts the current cell by one, up or down. -/
def roundsLeft (amount : Int) (m : Machine) : Nat := (m.touch.current * .ofInt (-amount)).toNat

theorem toNat_sub_one {byte : UInt8} (nonzero : byte ≠ 0) : (byte - 1).toNat + 1 = byte.toNat := by
  have pos : byte.toNat ≠ 0 := fun zero => nonzero (UInt8.toNat_inj.1 zero)
  have le : (1 : UInt8) ≤ byte := by
    rw [UInt8.le_iff_toNat_le]
    show 1 ≤ byte.toNat
    omega
  rw [UInt8.toNat_sub_of_le byte 1 le]
  show byte.toNat - 1 + 1 = byte.toNat
  omega

theorem roundsLeft_adjust {amount : Int} (unit : amount = 1 ∨ amount = -1) {m : Machine}
    (nonzero : m.touch.current ≠ 0) :
    roundsLeft amount (m.touch.adjust amount) + 1 = roundsLeft amount m := by
  unfold roundsLeft
  rw [Machine.touch_adjust, Machine.current_adjust, Machine.touch_touch]
  have left : m.touch.current * .ofInt (-amount) ≠ 0 := by
    rcases unit with rfl | rfl
    · show m.touch.current * (-1) ≠ 0
      grind
    · show m.touch.current * 1 ≠ 0
      grind
  have fewer : (m.touch.current + .ofInt amount) * .ofInt (-amount) =
      m.touch.current * .ofInt (-amount) - 1 := by
    rcases unit with rfl | rfl
    · show (m.touch.current + 1) * (-1) = m.touch.current * (-1) - 1
      grind
    · show (m.touch.current + -1) * 1 = m.touch.current * 1 - 1
      grind
  rw [fewer, toNat_sub_one left]

/-- What one round of a loop that counts can have come to. -/
theorem reaches_count {amount : Int} {m : Machine} {n : Nat} {s : Stage}
    (h : Code.Reaches (Op.exec policy) (.leaf (.add amount) .nil) m n s) :
    (∃ x, s = .amid x ∧ m.SameStreams x) ∨ s = .settled (.ended (m.adjust amount)) := by
  cases h with
  | amid => exact .inl ⟨m, rfl, rfl, rfl⟩
  | exhausted run => cases run
  | leaf run after =>
    cases run
    cases after with
    | amid => exact .inl ⟨_, rfl, m.sameStreams_adjust amount⟩
    | nil => exact .inr rfl

theorem exec_clear_adjust (m : Machine) (amount : Int) :
    Op.exec policy .clear (m.touch.adjust amount) = Op.exec policy .clear m := by
  show Outcome.ended ((m.touch.adjust amount).write 0) = .ended (m.write 0)
  rw [Machine.write_adjust, Machine.write_touch]

/-- A loop that counts the cell comes to an end and leaves the cell cleared. -/
theorem reaches_count_loop {amount : Int} (unit : amount = 1 ∨ amount = -1) {rest : Packed}
    {n : Nat} {s : Stage} (m : Machine) (after : rest.Reaches (Op.exec policy) (m.write 0) n s) :
    ∃ k, n + 1 ≤ k ∧
      Code.Reaches (Op.exec policy) (.loop (.leaf (.add amount) .nil) rest) m k s := by
  induction hr : roundsLeft amount m generalizing m with
  | zero =>
    by_cases zero : m.touch.current = 0
    · rw [Machine.write_zero_of_current zero] at after
      exact ⟨n + 1, Nat.le_refl _, .skip zero after⟩
    · have := roundsLeft_adjust unit zero
      omega
  | succ rounds ih =>
    by_cases zero : m.touch.current = 0
    · rw [Machine.write_zero_of_current zero] at after
      exact ⟨n + 1, Nat.le_refl _, .skip zero after⟩
    · have fewer := roundsLeft_adjust unit zero
      obtain ⟨k, le, hk⟩ := ih (m.touch.adjust amount)
        (by rw [Machine.write_adjust, Machine.write_touch]; exact after) (by omega)
      exact ⟨1 + 1 + k, by omega, .again zero (.leaf rfl (.nil _)) hk⟩

theorem count_shortens {amount : Int} (unit : amount = 1 ∨ amount = -1) (rest : Packed) :
    Shortens (Op.exec policy) (.loop (.leaf (.add amount) .nil) rest) (.leaf .clear rest) where
  forward := by
    intro m n s hs
    generalize hc : Code.loop (Code.leaf (Op.add amount) .nil) rest = c at hs
    induction hs with
    | amid => exact ⟨0, Nat.le_refl 0, _, .amid _ _, .refl _⟩
    | nil => cases hc
    | leaf => cases hc
    | exhausted => cases hc
    | skip zero after =>
      cases hc
      have run := congrArg Outcome.ended (Machine.write_zero_of_current zero)
      exact ⟨_, Nat.le_refl _, _, .leaf run after, .refl _⟩
    | @inside body rest m n s nonzero round unfinished =>
      cases hc
      rcases reaches_count round with ⟨x, rfl, same⟩ | rfl
      · refine ⟨0, Nat.zero_le _, .amid m, .amid _ _, ?_⟩
        exact Stage.Matches.trans (t := .amid m.touch) same.symm m.sameStreams_touch.symm
      · exact absurd trivial unfinished
    | @again body rest m m' n k s nonzero round _ _ ih =>
      cases hc
      obtain ⟨j, le, s', hs', hm⟩ := ih rfl
      rcases reaches_count round with ⟨_, h, -⟩ | h
      · cases h
      cases h
      cases hs' with
      | amid =>
        refine ⟨0, Nat.zero_le _, .amid m, .amid _ _, hm.trans ?_⟩
        exact Stage.Matches.trans (t := .amid m.touch)
          (m.touch.sameStreams_adjust amount).symm m.sameStreams_touch.symm
      | exhausted run => cases run
      | leaf run after =>
        rw [exec_clear_adjust] at run
        exact ⟨_, by omega, s', .leaf run after, hm⟩
  backward := by
    intro m n s hs
    cases hs with
    | amid => exact ⟨0, Nat.le_refl 0, .amid _ m⟩
    | exhausted run => cases run
    | leaf run after =>
      cases run
      exact reaches_count_loop unit m after

theorem eq_count_of_counts {body : Packed} (h : counts body = true) :
    ∃ amount, (amount = 1 ∨ amount = -1) ∧ body = .leaf (.add amount) .nil := by
  unfold counts at h
  split at h
  · next amount => exact ⟨amount, by simpa using h, rfl⟩
  · exact nomatch h

theorem clearBody_shortens (body : Packed) : Shortens (Op.exec policy) body (clearBody body) := by
  fun_induction clearBody body with
  | case1 => exact .refl _ _
  | case2 body rest counting ih =>
    obtain ⟨amount, unit, rfl⟩ := eq_count_of_counts counting
    exact (count_shortens unit rest).trans (.leaf .clear ih)
  | case3 body rest _ ih => exact .loop (.refl _ body) ih
  | case4 op rest ih => exact .leaf op ih

/-! ### Stores right before a clearing -/

theorem drop_store {op : Op} (h : stores op = true) (rest : Packed) :
    Shortens (Op.exec policy) (.leaf op (.leaf .clear rest)) (.leaf .clear rest) := by
  cases op with
  | add amount =>
    exact .merge (fun _ => rfl) (fun _ => rfl)
      (fun m => congrArg Outcome.ended (m.write_adjust amount 0).symm)
      (fun m => m.sameStreams_adjust amount)
  | clear =>
    exact .merge (fun _ => rfl) (fun _ => rfl)
      (fun m => congrArg Outcome.ended (m.write_write 0 0).symm) (fun m => m.sameStreams_write 0)
  | move distance => exact nomatch h
  | plain c => exact nomatch h
  | plainLoop body => exact nomatch h

theorem eq_clear_of_clearsFirst {rest : Packed} (h : clearsFirst rest = true) :
    ∃ rest', rest = .leaf .clear rest' := by
  unfold clearsFirst at h
  split at h
  · next rest' => exact ⟨rest', rfl⟩
  · exact nomatch h

theorem peepholeBody_shortens (body : Packed) :
    Shortens (Op.exec policy) body (peepholeBody body) := by
  fun_induction peepholeBody body with
  | case1 => exact .refl _ _
  | case2 body rest ih => exact .loop (.refl _ body) ih
  | case3 op rest h ih =>
    rw [Bool.and_eq_true] at h
    obtain ⟨rest', rfl⟩ := eq_clear_of_clearsFirst h.2
    exact (drop_store h.1 rest').trans ih
  | case4 op rest _ ih => exact .leaf op ih

end Packed

/-! ### Whole passes -/

theorem onBody_shortens (pass : Pass) (body : Packed) :
    Shortens (Op.exec policy) body (pass.onBody body) := by
  cases pass with
  | pack => exact Packed.packFrom_shortens .none body
  | reduce => exact Packed.reduceBody_shortens body
  | clear => exact Packed.clearBody_shortens body
  | peephole => exact Packed.peepholeBody_shortens body

theorem apply_shortens (pass : Pass) (c : Packed) :
    Shortens (Op.exec policy) c (pass.apply c) := by
  rw [Pass.apply, Code.walk_eq_transform]
  exact Code.shortens_transform (onBody_shortens pass) c

/-! ### Whole programs -/

namespace Packed

/-- Mapping the leaves is meaning them differently. -/
theorem eval_transform_id {α β : Type} (onLeaf : α → β) (exec : β → Machine → Outcome)
    (rounds : Nat) (c : Code α) (m : Machine) :
    (c.transform onLeaf id).eval exec rounds m = c.eval (fun a => exec (onLeaf a)) rounds m := by
  show (c.transformInside onLeaf id).eval exec rounds m = _
  induction c generalizing m with
  | nil => rfl
  | leaf a rest ih => simp only [Code.transformInside, Code.eval, ih]
  | loop body rest ihb ihr => simp only [Code.transformInside, Code.eval, id_eq, ihb, ihr]

theorem exec_ofCommand (policy : EndOfInput) (c : Command) :
    Op.exec policy (.ofCommand c) = c.exec policy := by
  cases c <;> rfl

theorem eval_ofProgram (policy : EndOfInput) (rounds : Nat) (p : Program) (m : Machine) :
    (ofProgram p).eval (Op.exec policy) rounds m = p.eval (Command.exec policy) rounds m := by
  rw [ofProgram, Code.walk_eq_transform, eval_transform_id]
  simp only [exec_ofCommand]

/-- Mapping the leaves keeps every stage and every number of steps. -/
theorem reaches_transform_id {α β : Type} {onLeaf : α → β} {exec : β → Machine → Outcome}
    {c : Code α} {m : Machine} {n : Nat} {s : Stage} :
    (c.transform onLeaf id).Reaches exec m n s ↔ c.Reaches (fun a => exec (onLeaf a)) m n s := by
  show (c.transformInside onLeaf id).Reaches exec m n s ↔ _
  constructor
  · intro h
    generalize hd : c.transformInside onLeaf id = d at h
    induction h generalizing c with
    | amid => exact .amid c _
    | nil =>
      cases c <;> cases hd
      exact .nil _
    | leaf run _ ih =>
      cases c <;> cases hd
      exact .leaf run (ih rfl)
    | exhausted run =>
      cases c <;> cases hd
      exact .exhausted run
    | skip zero _ ih =>
      cases c <;> cases hd
      exact .skip zero (ih rfl)
    | inside nonzero _ unfinished ih =>
      cases c <;> cases hd
      exact .inside nonzero (ih rfl) unfinished
    | again nonzero _ _ ihb ihl =>
      cases c <;> cases hd
      exact .again nonzero (ihb rfl) (ihl rfl)
  · intro h
    induction h with
    | amid c m => exact .amid _ m
    | nil m => exact .nil m
    | leaf run _ ih => exact .leaf run ih
    | exhausted run => exact .exhausted run
    | skip zero _ ih => exact .skip zero ih
    | inside nonzero _ unfinished ih => exact .inside nonzero ih unfinished
    | again nonzero _ _ ihb ihl => exact .again nonzero ihb ihl

theorem reaches_ofProgram {policy : EndOfInput} {p : Program} {m : Machine} {n : Nat} {s : Stage} :
    (ofProgram p).Reaches (Op.exec policy) m n s ↔ p.Reaches (Command.exec policy) m n s := by
  rw [ofProgram, Code.walk_eq_transform, reaches_transform_id]
  simp only [exec_ofCommand]

theorem applyAll_shortens (passes : List Pass) (c : Packed) :
    Shortens (Op.exec policy) c (applyAll passes c) := by
  induction passes generalizing c with
  | nil => exact .refl _ c
  | cons pass passes ih => exact (apply_shortens pass c).trans (ih (pass.apply c))

/-- The passes of a level begin with those of every lower one. -/
theorem passesAt_append {level level' : Int} (le : level ≤ level') :
    ∃ more, passesAt level' = passesAt level ++ more := by
  by_cases none : level ≤ 0
  · exact ⟨passesAt level', by simp only [passesAt, if_pos none, List.nil_append]⟩
  · have some : ¬ level' ≤ 0 := by omega
    by_cases one : level' = 1
    · obtain rfl : level = level' := by omega
      exact ⟨[], (List.append_nil _).symm⟩
    · by_cases first : level = 1
      · exact ⟨[.clear, .peephole], by simp only [passesAt, if_neg none, if_neg some, if_neg one,
          if_pos first, List.cons_append, List.nil_append]⟩
      · exact ⟨[], by simp only [passesAt, if_neg none, if_neg some, if_neg one, if_neg first,
          List.append_nil]⟩

/-- A higher level is some more passes over the packed code of a lower one. -/
theorem exists_optimize_eq_applyAll {level level' : Int} (le : level ≤ level') (p : Program) :
    ∃ more, optimize level' p = applyAll more (optimize level p) := by
  obtain ⟨more, split⟩ := passesAt_append le
  exact ⟨more, by simp only [optimize, applyAll, split, List.foldl_append]⟩

/-- **A higher level shortens the packed code of a lower one.** -/
theorem optimize_shortens {level level' : Int} (le : level ≤ level') (p : Program) :
    Shortens (Op.exec policy) (optimize level p) (optimize level' p) := by
  obtain ⟨more, later⟩ := exists_optimize_eq_applyAll le p
  rw [later]
  exact applyAll_shortens more _

theorem stays_ofProgram {P : Machine → Prop} {p : Program} {m : Machine} :
    (ofProgram p).Stays (Op.exec policy) P m ↔ p.Stays (Command.exec policy) P m := by
  simp only [Code.Stays, reaches_ofProgram]

/-- Packed code of any level passes through no machine that the program does not pass through. -/
theorem stays_optimize {P : Machine → Prop} {p : Program} {m : Machine}
    (stays : p.Stays (Command.exec policy) P m) (level : Int) :
    (optimize level p).Stays (Op.exec policy) P m :=
  (applyAll_shortens (passesAt level) (ofProgram p)).stays (stays_ofProgram.2 stays)

/-- Packed code as the recursive definition has it, body by body. -/
theorem optimize_eq (level : Int) (p : Program) :
    optimize level p = (passesAt level).foldl (fun c pass => c.transform id pass.onBody)
      (p.transform Op.ofCommand id) := by
  simp only [optimize, applyAll, Pass.apply, ofProgram, Code.walk_eq_transform]

/-- **The packed code of a program means at every level what the program means.** -/
theorem eval_optimize_iff (level : Int) (policy : EndOfInput) (p : Program) (m : Machine)
    (o : Outcome) :
    (∃ rounds, (optimize level p).eval (Op.exec policy) rounds m = some o) ↔
      ∃ rounds, p.eval (Command.exec policy) rounds m = some o := by
  rw [optimize, (applyAll_shortens (passesAt level) (ofProgram p)).eval_iff]
  simp only [eval_ofProgram]

end Packed

/-- **Every pass keeps the meaning of packed code**: after the pass it has an outcome exactly if it
had one before, and then the same one, with the tape, its growths, the unread input and the output
written. Code that runs forever still does. -/
theorem pass_keeps_meaning (pass : Pass) (policy : EndOfInput) (c : Packed) (m : Machine)
    (o : Outcome) : (∃ rounds, (pass.apply c).eval (Op.exec policy) rounds m = some o) ↔
      ∃ rounds, c.eval (Op.exec policy) rounds m = some o :=
  (apply_shortens pass c).eval_iff

end TapeLang
