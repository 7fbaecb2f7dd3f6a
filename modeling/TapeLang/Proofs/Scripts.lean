import TapeLang.Preparation
import TapeLang.Proofs.Weights
import TapeLang.Script.Running

/-! A script means what the packed code it was written from means.

A writer numbers loops as they open and fills in their functions as they close. What it leaves can
be said without a draft: the statements of a body depend only on the number of its first loop
(`statements`), and its functions follow one another in the order of their numbers (`functionsFrom`,
`writeBody_eq`). Each call then finds the function of its loop, and calls nest no deeper than the
loops do, so that the script has the outcome of the packed code under every bound
(`eval_of_write`). A level that is an integer is shown on one line, so the script made for it can be
loaded (`loadFault?_of_integer`), and every program has a script of every such level
(`scriptOf_int`). -/
namespace TapeLang

/-- How many loops there are at all depths. -/
def Code.loops {α : Type} : Code α → Nat
  | nil => 0
  | leaf _ rest => rest.loops
  | loop body rest => body.loops + rest.loops + 1

theorem Statement.ofOp_of_isPacked {op : Op} (h : op.isPacked = true) :
    ∃ s, Statement.ofOp op = .ok s := by
  match op, h with
  | .add amount, _ => exact ⟨_, rfl⟩
  | .move distance, _ => exact ⟨_, rfl⟩
  | .clear, _ => exact ⟨_, rfl⟩
  | .plain .output, _ => exact ⟨_, rfl⟩
  | .plain .input, _ => exact ⟨_, rfl⟩

namespace ScriptWriter

/-! ### Functions without a draft -/

/-- The statements of a body whose first loop has the given number. -/
def statements (number : Nat) : Packed → List Statement
  | .nil => []
  | .leaf op rest =>
    match Statement.ofOp op with
    | .ok s => s :: statements number rest
    | .error _ => statements number rest
  | .loop body rest => .call number :: statements (number + 1 + body.loops) rest

/-- The functions of the loops of a body whose first loop has the given number. -/
def functionsFrom (number : Nat) : Packed → List (List Statement)
  | .nil => []
  | .leaf _ rest => functionsFrom number rest
  | .loop body rest =>
    statements (number + 1) body ::
      (functionsFrom (number + 1) body ++ functionsFrom (number + 1 + body.loops) rest)

theorem length_functionsFrom (number : Nat) (c : Packed) :
    (functionsFrom number c).length = c.loops := by
  induction c generalizing number with
  | nil => rfl
  | leaf op rest ih => exact ih number
  | loop body rest ihb ihr =>
    simp only [functionsFrom, List.length_cons, List.length_append, ihb, ihr, Code.loops]

/-- The function of a loop is filled in behind the functions of the loops before it. -/
theorem fill_in (functions : Array (List Statement)) (inner : List Statement)
    (later : List (List Statement)) :
    (functions.push [] ++ later.toArray).setIfInBounds functions.size inner =
      functions ++ (inner :: later).toArray := by
  apply Array.ext'
  simp

/-- What a writer has written after a body. -/
theorem writeBody_eq {c : Packed} (packed : c.all Op.isPacked = true) {level : Nat}
    (written : List Statement) {functions : Array (List Statement)} {depth : Nat}
    (deep : level ≤ depth) :
    writeBody level c written ⟨functions, depth⟩ =
      (.ok (written.reverse ++ statements functions.size c),
        ⟨functions ++ (functionsFrom functions.size c).toArray, max depth (level + c.depth)⟩) := by
  induction c generalizing level written functions depth with
  | nil => simp [writeBody, statements, functionsFrom, Code.depth, Nat.max_eq_left deep]
  | leaf op rest ih =>
    simp only [Code.all, Bool.and_eq_true] at packed
    obtain ⟨s, hs⟩ := Statement.ofOp_of_isPacked packed.1
    simp only [writeBody, hs, ih packed.2 _ deep, statements, functionsFrom, Code.depth,
      List.reverse_cons, List.append_assoc, List.singleton_append]
  | loop body rest ihb ihr =>
    simp only [Code.all, Bool.and_eq_true] at packed
    have inner : writeBody (level + 1) body [] ⟨functions.push [], max depth (level + 1)⟩ = _ :=
      ihb packed.1 [] (Nat.le_max_right depth (level + 1))
    simp only [Array.size_push, List.reverse_nil, List.nil_append] at inner
    have size : (functions ++ (statements (functions.size + 1) body ::
        functionsFrom (functions.size + 1) body).toArray).size =
        functions.size + 1 + body.loops := by
      simp only [Array.size_append, List.size_toArray, List.length_cons, length_functionsFrom]
      omega
    simp only [writeBody, inner, fill_in]
    rw [ihr packed.2 _ (by omega), size]
    simp only [statements, functionsFrom, Code.depth, List.reverse_cons, List.append_assoc,
      List.singleton_append, Prod.mk.injEq, Draft.mk.injEq, true_and]
    refine ⟨?_, by omega⟩
    simp only [Array.append_assoc, List.append_toArray, List.cons_append]

/-- The script of packed code. -/
theorem write_eq (w : ScriptWriter) {c : Packed} (packed : c.all Op.isPacked = true) :
    (w.write c).1 = .ok
      { sourceName := w.sourceName
        level := w.level
        policy := w.policy
        depth := c.depth
        functions := (functionsFrom 0 c).toArray
        main := statements 0 c } := by
  have body : writeBody 0 c [] {} = _ := writeBody_eq packed [] (Nat.le_refl 0)
  simp only [write, body]
  simp

end ScriptWriter

/-! ### What a script means -/

namespace Script
open ScriptWriter

/-- The functions of the loops of a body stand in a script. -/
def Has (s : Script) (number : Nat) (c : Packed) : Prop :=
  ∀ i statements, (functionsFrom number c)[i]? = some statements →
    s.functions[number + i]? = some statements

theorem exec_ofOp {policy : EndOfInput} {onCall : Nat → Machine → Option Outcome} {op : Op}
    {s : Statement} (h : Statement.ofOp op = .ok s) (m : Machine) :
    s.exec policy onCall m = some (op.exec policy m) := by
  match op, h with
  | .add amount, rfl => rfl
  | .move distance, rfl => rfl
  | .clear, rfl => rfl
  | .plain .output, rfl => rfl
  | .plain .input, rfl => rfl

theorem Has.loop {s : Script} {number : Nat} {body rest : Packed}
    (h : s.Has number (.loop body rest)) :
    s.functions[number]? = some (statements (number + 1) body) ∧ s.Has (number + 1) body ∧
      s.Has (number + 1 + body.loops) rest := by
  refine ⟨h 0 _ rfl, fun i inner here => ?_, fun i inner here => ?_⟩
  · have inside := (List.getElem?_eq_some_iff.1 here).1
    rw [Nat.add_assoc, Nat.add_comm 1]
    refine h (i + 1) inner ?_
    rw [functionsFrom, List.getElem?_cons_succ, List.getElem?_append_left inside, here]
  · have past := length_functionsFrom (number + 1) body
    rw [show number + 1 + body.loops + i = number + (body.loops + i + 1) by omega]
    refine h (body.loops + i + 1) inner ?_
    rw [functionsFrom, List.getElem?_cons_succ, List.getElem?_append_right (by omega), past,
      Nat.add_sub_cancel_left, here]

/-- **The statements of a body mean what the body means**, where its functions stand in the script
and calls may nest as deep as its loops do. -/
theorem execAll_statements (s : Script) (rounds : Nat) {c : Packed}
    (packed : c.all Op.isPacked = true) {number depth : Nat} (has : s.Has number c)
    (deep : c.depth ≤ depth) (m : Machine) :
    Statement.execAll s.policy (s.callLoop rounds depth) (statements number c) m =
      c.eval (Op.exec s.policy) rounds m := by
  induction c generalizing number depth m with
  | nil => rfl
  | leaf op rest ih =>
    simp only [Code.all, Bool.and_eq_true] at packed
    obtain ⟨st, hst⟩ := Statement.ofOp_of_isPacked packed.1
    simp only [statements, hst, Statement.execAll, exec_ofOp hst, Code.eval]
    cases op.exec s.policy m with
    | ended m' => exact ih packed.2 has deep m'
    | exhausted m' => rfl
  | loop body rest ihb ihr =>
    simp only [Code.all, Bool.and_eq_true] at packed
    simp only [Code.depth] at deep
    obtain ⟨here, hasBody, hasRest⟩ := has.loop
    obtain ⟨depth, rfl⟩ : ∃ d, depth = d + 1 := ⟨depth - 1, by omega⟩
    have round : Statement.execAll s.policy (s.callLoop rounds depth)
        (s.functions.getD number []) = fun m => body.eval (Op.exec s.policy) rounds m := by
      funext m
      rw [Array.getD_eq_getD_getElem?, here]
      exact ihb packed.1 hasBody (by omega) m
    have call : (Statement.call number).exec s.policy (s.callLoop rounds (depth + 1)) m =
        repeatWhile (fun m => body.eval (Op.exec s.policy) rounds m) rounds m := by
      rw [Statement.exec, callLoop, round]
    simp only [statements, Statement.execAll, call, Code.eval]
    cases repeatWhile (fun m => body.eval (Op.exec s.policy) rounds m) rounds m with
    | none => rfl
    | some o =>
      cases o with
      | ended m' => exact ihr packed.2 hasRest (by omega) m'
      | exhausted m' => rfl

/-- **A script means what the packed code it was written from means.** -/
theorem eval_of_write {w : ScriptWriter} {c : Packed} {s : Script}
    (packed : c.all Op.isPacked = true) (written : (w.write c).1 = .ok s) (rounds : Nat)
    (m : Machine) : s.eval rounds m = c.eval (Op.exec w.policy) rounds m := by
  rw [write_eq w packed] at written
  cases written
  refine execAll_statements _ rounds packed (fun i inner here => ?_) (Nat.le_refl _) m
  simpa using here

/-! ### Loading -/

/-- A text without line ends is one line. -/
theorem physicalLines_of_unbroken {text : Text}
    (h : ∀ c ∈ text, c ≠ CodePoint.char '\n' ∧ c ≠ CodePoint.char '\r') :
    physicalLines text = [text] := by
  induction text with
  | nil => rfl
  | cons c text ih =>
    obtain ⟨⟨notNewline, notReturn⟩, rest⟩ := List.forall_mem_cons.1 h
    unfold physicalLines
    split
    · next heads => cases heads
    · next heads =>
      cases heads
      exact absurd rfl notReturn
    · next heads =>
      cases heads
      simp only [notNewline, notReturn, or_self, if_false, ih rest]

/-- A script for a level that is an integer can be loaded. -/
theorem loadFault?_of_integer {s : Script} {level : Int} (h : s.level = Numeral.integer level) :
    s.loadFault? = none := by
  have closing : ∀ c ∈ Text.ofString ").",
      c ≠ CodePoint.char '\n' ∧ c ≠ CodePoint.char '\r' := by decide
  have one : physicalLines (s.level ++ Text.ofString ").") = [s.level ++ Text.ofString ")."] := by
    refine physicalLines_of_unbroken fun c mem => ?_
    rcases List.mem_append.1 mem with mem | mem
    · exact Numeral.unbroken_integer level c (h ▸ mem)
    · exact closing c mem
  simp only [loadFault?, one, List.drop_succ_cons, List.drop_nil, List.findSome?_nil]

end Script

/-! ### Scripts of programs -/

section
variable {word : Scalar} {policy : EndOfInput} (named : EndOfInput.ofScalar? word = some policy)
  (level : Int) (sourceName : Option Text) (p : Program)
include named

/-- **Every program has a script** of every level that is an integer. -/
theorem scriptOf_int : scriptOf (.int level) word sourceName p = .ok
    { sourceName := (ScriptWriter.make (.int level) policy sourceName).sourceName
      level := Numeral.integer level
      policy
      depth := (Packed.optimize level p).depth
      functions := (ScriptWriter.functionsFrom 0 (Packed.optimize level p)).toArray
      main := ScriptWriter.statements 0 (Packed.optimize level p) } := by
  have written := ScriptWriter.write_eq (.make (.int level) policy sourceName)
    (Packed.isPacked_optimize level p)
  simp only [scriptOf, Packed.ofLevel, Scalar.toInteger, EndOfInput.ofScalar, named, bind,
    Except.bind, ScriptWriter.script, written]
  rfl

/-- The script of a program can be loaded, and it means what the packed code of its level means. -/
theorem load_and_eval_of_scriptOf {s : Script}
    (made : scriptOf (.int level) word sourceName p = .ok s) :
    s.load = .ok s ∧ ∀ rounds m,
      s.eval rounds m = (Packed.optimize level p).eval (Op.exec policy) rounds m := by
  have packed := Packed.isPacked_optimize level p
  rw [scriptOf_int named] at made
  cases made
  refine ⟨?_, ?_⟩
  · rw [Script.load, Script.loadFault?_of_integer rfl]
  · exact Script.eval_of_write packed
      (ScriptWriter.write_eq (.make (.int level) policy sourceName) packed)

end

end TapeLang
