import TapeLang.Preparation
import TapeLang.Proofs.Bodies
import TapeLang.Proofs.Scripts

/-! What a writer refuses, and what it carries over.

Four commands have operations that stand for them, and none of them has a statement of its own. Nor
has a loop of a program that has been left as it is. Where one of these stands in packed code,
inside whatever loops, nothing is written, and the first one in the order of the source is named
(`writeBody_of_refused`). The functions begun by then and the depth reached stay behind in the
writer; they are those of the code in front of what is named (`left_writeBody`). The next call does
not see them: what a writer does depends on its settings alone, and no call changes these
(`renewed_after`, `script_after`). -/
namespace TapeLang

/-- The commands that have no statement in a script. -/
def Command.unwritten : List Command := [.increment, .decrement, .advance, .retreat]

/-- The instruction that an operation is, if it is one without a statement. -/
def Op.unwritten? : Op → Option Instruction
  | .plain k => if k ∈ Command.unwritten then some (.command k) else none
  | .plainLoop body => some (.loop body)
  | _ => none

theorem Op.unwritten?_eq_none_iff {op : Op} : op.unwritten? = none ↔ op.isPacked = true := by
  cases op with
  | plain k => cases k <;> decide
  | _ => simp [unwritten?, isPacked]

/-- What has no statement is one of the four commands or a loop that is left as it is. -/
theorem Op.unwritten?_eq_some_iff {op : Op} {i : Instruction} :
    op.unwritten? = some i ↔
      (∃ k ∈ Command.unwritten, op = .plain k ∧ i = .command k) ∨
        ∃ body, op = .plainLoop body ∧ i = .loop body := by
  cases op with
  | plain k =>
    simp only [unwritten?, Option.ite_none_right_eq_some, Option.some.injEq, plain.injEq,
      reduceCtorEq, false_and, exists_const, or_false]
    constructor
    · rintro ⟨mem, rfl⟩
      exact ⟨k, mem, rfl, rfl⟩
    · rintro ⟨_, mem, rfl, rfl⟩
      exact ⟨mem, rfl⟩
  | plainLoop body => simp [unwritten?, eq_comm]
  | _ => simp [unwritten?]

theorem Statement.ofOp_of_unwritten {op : Op} {i : Instruction} (h : op.unwritten? = some i) :
    Statement.ofOp op = .error i := by
  rcases Op.unwritten?_eq_some_iff.1 h with ⟨k, mem, rfl, rfl⟩ | ⟨body, rfl, rfl⟩
  · cases k with
    | output => exact absurd mem (by decide)
    | input => exact absurd mem (by decide)
    | _ => rfl
  · rfl

namespace Packed

variable {body rest c : Packed} {op : Op}

/-- The first instruction in the order of the source that has no statement. -/
def refused? (c : Packed) : Option Instruction := c.leaves.findSome? Op.unwritten?

/-- What stands in front of the first instruction that has no statement. The loops around it are
closed there. -/
def cut : Packed → Packed
  | .nil => .nil
  | .leaf op rest => if op.isPacked then .leaf op (cut rest) else .nil
  | .loop body rest =>
    if body.all Op.isPacked then .loop body (cut rest) else .loop (cut body) .nil

@[simp] theorem refused?_nil : refused? .nil = none := rfl

@[simp] theorem refused?_leaf : refused? (.leaf op rest) = op.unwritten?.or (refused? rest) := by
  simp only [refused?, Code.leaves, List.findSome?_cons]
  cases op.unwritten? <;> rfl

@[simp] theorem refused?_loop : refused? (.loop body rest) = (refused? body).or (refused? rest) :=
  List.findSome?_append

theorem refused?_eq_none_iff : c.refused? = none ↔ c.all Op.isPacked = true := by
  simp only [refused?, List.findSome?_eq_none_iff, Code.all_eq_true_iff,
    Op.unwritten?_eq_none_iff]

/-- Something is refused exactly if one of the four commands, or a loop that is left as it is,
stands somewhere in the code. -/
theorem exists_refused_iff :
    (∃ i, c.refused? = some i) ↔
      (∃ k ∈ Command.unwritten, .plain k ∈ c.leaves) ∨ ∃ body, .plainLoop body ∈ c.leaves := by
  constructor
  · rintro ⟨i, refused⟩
    obtain ⟨op, mem, found⟩ := List.exists_of_findSome?_eq_some refused
    rcases Op.unwritten?_eq_some_iff.1 found with ⟨k, unwritten, rfl, -⟩ | ⟨body, rfl, -⟩
    · exact .inl ⟨k, unwritten, mem⟩
    · exact .inr ⟨body, mem⟩
  · have refused : ∀ {op : Op} {i}, op.unwritten? = some i → op ∈ c.leaves →
        ∃ i, c.refused? = some i := fun found mem =>
      Option.ne_none_iff_exists'.1 fun none =>
        nomatch found.symm.trans (List.findSome?_eq_none_iff.1 none _ mem)
    rintro (⟨k, unwritten, mem⟩ | ⟨body, mem⟩)
    · exact refused (Op.unwritten?_eq_some_iff.2 (.inl ⟨k, unwritten, rfl, rfl⟩)) mem
    · exact refused rfl mem

end Packed

namespace ScriptWriter
open Packed

variable {c : Packed} {i : Instruction} {level depth : Nat} {functions : Array (List Statement)}

/-! ### What stops a writer -/

/-- A writer that comes through a loop goes on behind it, with the functions of the loops filled
in. -/
theorem writeBody_loop_of_packed {body : Packed} (packed : body.all Op.isPacked = true)
    (rest : Packed) (written : List Statement) :
    writeBody level (.loop body rest) written ⟨functions, depth⟩ =
      writeBody level rest (.call functions.size :: written)
        ⟨functions ++ (functionsFrom functions.size (.loop body .nil)).toArray,
          max depth (level + 1 + body.depth)⟩ := by
  have inner : writeBody (level + 1) body [] ⟨functions.push [], max depth (level + 1)⟩ = _ :=
    writeBody_eq packed [] (Nat.le_max_right depth (level + 1))
  have deepest : max (max depth (level + 1)) (level + 1 + body.depth) =
      max depth (level + 1 + body.depth) := by omega
  simp only [Array.size_push, List.reverse_nil, List.nil_append, deepest] at inner
  simp only [writeBody, inner, fill_in, functionsFrom, List.append_nil]

/-- A writer that is stopped inside a loop is stopped, and nothing is filled in. -/
theorem writeBody_loop_of_stopped {body : Packed}
    (stopped : (writeBody (level + 1) body [] ⟨functions.push [], max depth (level + 1)⟩).1 =
      .error i) (rest : Packed) (written : List Statement) :
    writeBody level (.loop body rest) written ⟨functions, depth⟩ =
      (.error i, (writeBody (level + 1) body [] ⟨functions.push [], max depth (level + 1)⟩).2) := by
  obtain ⟨d, inner⟩ : ∃ d, writeBody (level + 1) body []
      ⟨functions.push [], max depth (level + 1)⟩ = (.error i, d) := ⟨_, Prod.ext stopped rfl⟩
  simp only [writeBody, inner]

/-- **The first instruction without a statement stops the writer**, whatever has been written
before. -/
theorem writeBody_of_refused (refused : c.refused? = some i) (level : Nat)
    (written : List Statement) (d : Draft) : (writeBody level c written d).1 = .error i := by
  induction c generalizing level written d with
  | nil => cases refused
  | leaf op rest ih =>
    rw [refused?_leaf] at refused
    cases here : op.unwritten? with
    | none =>
      obtain ⟨s, hs⟩ := Statement.ofOp_of_isPacked (Op.unwritten?_eq_none_iff.1 here)
      rw [here] at refused
      simp only [writeBody, hs]
      exact ih refused level _ d
    | some i' =>
      rw [here] at refused
      cases refused
      simp only [writeBody, Statement.ofOp_of_unwritten here]
  | loop body rest ihb ihr =>
    obtain ⟨functions, depth⟩ := d
    rw [refused?_loop] at refused
    cases inside : refused? body with
    | none =>
      rw [inside] at refused
      rw [writeBody_loop_of_packed (refused?_eq_none_iff.1 inside)]
      exact ihr refused level _ _
    | some i' =>
      rw [inside] at refused
      cases refused
      exact congrArg Prod.fst (writeBody_loop_of_stopped (ihb inside _ _ _) rest written)

variable (functions) in
/-- A writer has begun a function for each loop in front of what stops it, and has met the nesting
that these loops have. -/
theorem left_writeBody (c : Packed) (written : List Statement) (deep : level ≤ depth) :
    (writeBody level c written ⟨functions, depth⟩).2.functions.size =
        functions.size + c.cut.loops ∧
      (writeBody level c written ⟨functions, depth⟩).2.depth = max depth (level + c.cut.depth) := by
  induction c generalizing level depth written functions with
  | nil => simp [writeBody, cut, Code.loops, Code.depth, Nat.max_eq_left deep]
  | leaf op rest ih =>
    cases here : op.unwritten? with
    | none =>
      have packed := Op.unwritten?_eq_none_iff.1 here
      obtain ⟨s, hs⟩ := Statement.ofOp_of_isPacked packed
      simp only [writeBody, hs, cut, packed, if_true]
      exact ih functions _ deep
    | some i =>
      have bare : op.isPacked ≠ true := by
        rw [ne_eq, ← Op.unwritten?_eq_none_iff, here]
        exact Option.some_ne_none i
      simp [writeBody, Statement.ofOp_of_unwritten here, cut, bare, Code.loops, Code.depth,
        Nat.max_eq_left deep]
  | loop body rest ihb ihr =>
    cases refused : refused? body with
    | none =>
      have packed := refused?_eq_none_iff.1 refused
      rw [writeBody_loop_of_packed packed, cut, if_pos packed]
      obtain ⟨size, deepest⟩ := ihr
        (functions ++ (functionsFrom functions.size (.loop body .nil)).toArray)
        (.call functions.size :: written) (show level ≤ max depth (level + 1 + body.depth) by omega)
      rw [size, deepest]
      simp only [Array.size_append, List.size_toArray, length_functionsFrom, Code.loops, Code.depth]
      omega
    | some i =>
      have bare : ¬ body.all Op.isPacked = true := by
        rw [← refused?_eq_none_iff, refused]
        exact Option.some_ne_none i
      obtain ⟨size, deepest⟩ := ihb (functions.push []) [] (Nat.le_max_right depth (level + 1))
      rw [writeBody_loop_of_stopped (writeBody_of_refused refused _ _ _), cut, if_neg bare, size,
        deepest, Array.size_push]
      simp only [Code.loops, Code.depth]
      omega

/-- Of two functions that are begun neither is filled in. -/
example :
    (writeBody 0
      (.loop (.leaf (.plain .output) <| .loop (.leaf (.plain .increment) .nil) .nil) .nil)
      [] {}).2 = ⟨#[[], []], 2⟩ := by decide

/-! ### What a writer keeps -/

def renewed (w : ScriptWriter) : ScriptWriter := { w with draft := {} }

/-- A writer after some calls, whether they failed or not. -/
def after (w : ScriptWriter) : List Packed → ScriptWriter
  | [] => w
  | c :: calls => (w.script c).2.after calls

variable {w : ScriptWriter}

/-- A call only looks at the settings. -/
theorem script_renewed (w : ScriptWriter) (c : Packed) : w.renewed.script c = w.script c := rfl

/-- A call writes or fails as the body does, and leaves the draft of the body and the settings. -/
theorem script_eq (w : ScriptWriter) (c : Packed) :
    w.script c = match writeBody 0 c [] {} with
      | (.ok main, d) =>
        (.ok ⟨w.sourceName, w.level, w.policy, d.depth, d.functions, main⟩, { w with draft := d })
      | (.error i, d) => (.error (.noStatement i), { w with draft := d }) := by
  simp only [script, write]
  rcases writeBody 0 c [] {} with ⟨_ | _, d⟩ <;> rfl

/-- A call changes no setting, even if it fails. -/
theorem renewed_script (w : ScriptWriter) (c : Packed) :
    (w.script c).2.renewed = w.renewed := by
  rw [script_eq]
  rcases writeBody 0 c [] {} with ⟨_ | _, d⟩ <;> rfl

theorem renewed_after (w : ScriptWriter) (calls : List Packed) :
    (w.after calls).renewed = w.renewed := by
  induction calls generalizing w with
  | nil => rfl
  | cons c calls ih => exact (ih _).trans (renewed_script w c)

theorem script_after (w : ScriptWriter) (calls : List Packed) (c : Packed) :
    (w.after calls).script c = w.script c := by
  rw [← script_renewed, renewed_after, script_renewed]

/-- A call fails exactly if something is refused, and names it. -/
theorem script_eq_error_iff (w : ScriptWriter) {e : Error} :
    (w.script c).1 = .error e ↔ ∃ i, c.refused? = some i ∧ e = .noStatement i := by
  rw [script_eq]
  cases refused : c.refused? with
  | some i =>
    obtain ⟨d, stopped⟩ : ∃ d, writeBody 0 c [] {} = (.error i, d) :=
      ⟨_, Prod.ext (writeBody_of_refused refused 0 [] {}) rfl⟩
    simp [stopped, eq_comm]
  | none =>
    have body : writeBody 0 c [] {} = _ :=
      writeBody_eq (refused?_eq_none_iff.1 refused) [] (Nat.le_refl 0)
    simp [body]

/-- The draft that a call leaves, whether it failed or not. -/
theorem draft_script (w : ScriptWriter) (c : Packed) :
    (w.script c).2.draft = (writeBody 0 c [] {}).2 := by
  rw [script_eq]
  rcases writeBody 0 c [] {} with ⟨_ | _, d⟩ <;> rfl

/-- A script is what its writer holds. -/
theorem draft_of_written {s : Script} (written : (w.script c).1 = .ok s) :
    (w.script c).2.draft = ⟨s.functions, s.depth⟩ := by
  rw [script_eq] at written ⊢
  generalize writeBody 0 c [] {} = result at written ⊢
  obtain ⟨_ | main, d⟩ := result
  · cases written
  · cases written
    rfl

end ScriptWriter

/-- **A writer carries nothing over.** After any calls, failed or not, a writer does with packed
code what a new one for the same level, policy and source does: it returns the same script or the
same error, and is left with the same draft. It fails exactly if one of the commands without a
statement, or a loop that is left as it is in a program, stands in the code at any depth, and names
the first of these in the order of the source, a loop with all that it holds. A script that it
writes is what its draft holds; in any case its draft holds a function for each loop in front of
what was refused and the depth to which these are nested. Numbers are written in full here, however
long they are; the limit of digits is kept for numbers that are given
(`IntegerLiteral.digitLimit`). -/
theorem writer_starts_over (level : Scalar) (policy : EndOfInput) (sourceName : Option Text)
    (calls : List Packed) (c : Packed) :
    let fresh := ScriptWriter.make level policy sourceName
    let used := fresh.after calls
    used.script c = fresh.script c ∧
      ((∃ e, (used.script c).1 = .error e) ↔
        (∃ k ∈ Command.unwritten, .plain k ∈ c.leaves) ∨ ∃ body, .plainLoop body ∈ c.leaves) ∧
      (∀ e, (used.script c).1 = .error e ↔ ∃ i, c.refused? = some i ∧ e = .noStatement i ∧
        e.message? = some ("Unexpected IR node " ++ i.called)) ∧
      (∀ s, (used.script c).1 = .ok s → (used.script c).2.draft = ⟨s.functions, s.depth⟩) ∧
      (used.script c).2.draft.functions.size = c.cut.loops ∧
      (used.script c).2.draft.depth = c.cut.depth := by
  intro fresh used
  have same : used.script c = fresh.script c := ScriptWriter.script_after fresh calls c
  rw [same, ScriptWriter.draft_script]
  refine ⟨rfl, ?_, fun e => ?_, fun s written => ?_, ?_⟩
  · rw [← Packed.exists_refused_iff]
    simp only [ScriptWriter.script_eq_error_iff]
    exact ⟨fun ⟨_, i, refused, _⟩ => ⟨i, refused⟩, fun ⟨i, refused⟩ => ⟨_, i, refused, rfl⟩⟩
  · rw [ScriptWriter.script_eq_error_iff]
    refine exists_congr fun i => and_congr_right fun _ => ?_
    exact ⟨fun named => ⟨named, named ▸ rfl⟩, And.left⟩
  · exact (ScriptWriter.draft_script fresh c).symm.trans (ScriptWriter.draft_of_written written)
  · obtain ⟨size, deepest⟩ := ScriptWriter.left_writeBody #[] c [] (Nat.le_refl 0)
    exact ⟨by simpa using size, by simpa using deepest⟩

/-- A loop that is left as it is stops the writer though none of the four commands is there, and
where one stands inside it, what is named is the loop. -/
theorem plain_loop_is_refused :
    ((∃ e, ((ScriptWriter.make (.int 1) .error none).script (.leaf (.plainLoop .nil) .nil)).1 =
        .error e) ∧
      ¬ ∃ k ∈ Command.unwritten, .plain k ∈ (Code.leaf (Op.plainLoop .nil) .nil).leaves) ∧
    ∃ e, ((ScriptWriter.make (.int 1) .error none).script
        (.leaf (.plainLoop (.leaf .increment .nil)) .nil)).1 = .error e ∧
      e.message? = some "Unexpected IR node Loop(body=(Increment(),))" := by
  refine ⟨⟨⟨_, rfl⟩, by decide⟩, _, rfl, by decide⟩

end TapeLang
