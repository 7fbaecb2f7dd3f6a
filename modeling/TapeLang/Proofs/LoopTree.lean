import TapeLang.Proofs.Readback

/-! The functions of a script form the tree of the loops.

A script has one function for each loop. Its functions are numbered in a row, in the order in which
the loops open: whoever goes through the top level, and at each call through the function that is
called, meets the numbers one after the other (`Contents.opened`). Each function is called from one
place, which is the top level or a function with a smaller number. What stands on the lines of the
functions is one statement for each operation and one call for each loop, and the depth that a
script states is that of the loops. `Script.Contents.Forms` says this of what is read back from a
text, so it is a fact of the text alone. -/
namespace TapeLang

/-- The loops that statements open, in this order, where it is known which loops are opened inside
a loop. -/
def Statement.opened (inside : Nat → List Nat) : List Statement → List Nat
  | [] => []
  | call loop :: statements => loop :: (inside loop ++ opened inside statements)
  | _ :: statements => opened inside statements

namespace Script

/-- The loops that the function of a loop opens, in this order. As for bodies, a function may only
call one that comes later. -/
def openedIn : List (Nat × List Statement) → Nat → List Nat
  | [] => fun _ => []
  | (number, statements) :: functions => fun loop =>
    if loop = number then Statement.opened (openedIn functions) statements
    else openedIn functions loop

namespace Contents

/-- All loops that a script opens, in this order. -/
def opened (s : Contents) : List Nat := Statement.opened (openedIn s.functions) s.main

def statements (s : Contents) : List Statement := s.main ++ s.functions.flatMap (·.2)

/-- The functions of a script form the tree of the loops of some code. -/
structure Forms (s : Contents) (c : Packed) : Prop where
  /-- There is a function for each loop, and they are numbered in a row. -/
  numbers : s.functions.map Prod.fst = List.range c.loops
  /-- The numbers are in the order in which the loops open. -/
  order : s.opened = List.range c.loops
  /-- With its calls carried out, each function is the body of its loop. -/
  bodies : bodies? s.functions = some ((List.range c.loops).zip c.innerBodies)
  code : s.code? = some c
  /-- Each function is called from one place, and nothing else is called. -/
  called : ∀ loop, s.statements.count (.call loop) = if loop < c.loops then 1 else 0
  later : ∀ entry ∈ s.functions, ∀ loop, .call loop ∈ entry.2 → entry.1 < loop
  size : s.statements.length = c.size
  depth : s.depth = c.depth

end Contents

end Script

namespace ScriptWriter
open Script

variable {c rest : Packed} {number loop : Nat} {op : Op}

/-- An operation has one statement, and it is no call. -/
theorem exists_statement (packed : (Code.leaf op rest).all Op.isPacked = true) (number : Nat) :
    ∃ s, (∀ loop, s ≠ .call loop) ∧
      statements number (.leaf op rest) = s :: statements number rest ∧
      rest.all Op.isPacked = true := by
  simp only [Code.all, Bool.and_eq_true] at packed
  obtain ⟨s, hs⟩ := Statement.ofOp_of_isPacked packed.1
  refine ⟨s, fun loop same => ?_, by simp only [statements, hs], packed.2⟩
  subst same
  cases op with
  | plain c => cases c <;> cases hs
  | _ => cases hs

/-! ### Calls -/

/-- The statements of a body only call loops from the given number on. -/
theorem le_of_call_mem (packed : c.all Op.isPacked = true)
    (mem : .call loop ∈ statements number c) : number ≤ loop := by
  induction c generalizing number with
  | nil => exact nomatch mem
  | leaf op rest ih =>
    obtain ⟨s, other, first, packed⟩ := exists_statement packed number
    rw [first] at mem
    rcases List.mem_cons.1 mem with same | mem
    · exact absurd same.symm (other loop)
    · exact ih packed mem
  | loop body rest _ ihr =>
    simp only [Code.all, Bool.and_eq_true] at packed
    rcases List.mem_cons.1 mem with same | mem
    · cases same
      exact Nat.le_refl _
    · have behind := ihr packed.2 mem
      omega

/-- The statements of a body and of its functions call each loop of the body once. -/
theorem count_call (packed : c.all Op.isPacked = true) :
    (statements number c).count (.call loop) +
        (functionsFrom number c).flatten.count (.call loop) =
      (List.range' number c.loops).count loop := by
  induction c generalizing number with
  | nil => rfl
  | leaf op rest ih =>
    obtain ⟨s, other, first, packed⟩ := exists_statement packed number
    rw [first, List.count_cons_of_ne (other loop)]
    exact ih packed
  | loop body rest ihb ihr =>
    simp only [Code.all, Bool.and_eq_true] at packed
    have here : (Statement.call number == .call loop) = (number == loop) := by
      simp [BEq.beq]
    simp only [statements, functionsFrom, List.flatten_cons, List.flatten_append,
      List.count_append, List.count_cons, Code.loops, range'_loop, here, ← ihb packed.1,
      ← ihr packed.2]
    omega

/-- There is one statement for each operation and each loop. -/
theorem length_statements (packed : c.all Op.isPacked = true) (number : Nat) :
    (statements number c).length + (functionsFrom number c).flatten.length = c.size := by
  induction c generalizing number with
  | nil => rfl
  | leaf op rest ih =>
    obtain ⟨s, -, first, packed⟩ := exists_statement packed number
    have behind := ih packed number
    simp only [first, functionsFrom, List.length_cons, Code.size]
    omega
  | loop body rest ihb ihr =>
    simp only [Code.all, Bool.and_eq_true] at packed
    have inner := ihb packed.1 (number + 1)
    have outer := ihr packed.2 (number + 1 + body.loops)
    simp only [statements, functionsFrom, List.flatten_cons, List.flatten_append,
      List.length_cons, List.length_append, Code.size]
    omega

/-- Each function is that of a body whose loops have the next numbers. -/
theorem exists_body_of_mem (packed : c.all Op.isPacked = true) {entry : Nat × List Statement}
    (mem : entry ∈ numbered number (functionsFrom number c)) :
    ∃ body : Packed, body.all Op.isPacked = true ∧ statements (entry.1 + 1) body = entry.2 := by
  induction c generalizing number with
  | nil => exact nomatch mem
  | leaf op rest ih =>
    simp only [Code.all, Bool.and_eq_true] at packed
    exact ih packed.2 mem
  | loop body rest ihb ihr =>
    simp only [Code.all, Bool.and_eq_true] at packed
    simp only [functionsFrom, numbered, numbered_append, length_functionsFrom, List.mem_cons,
      List.mem_append] at mem
    rcases mem with rfl | mem | mem
    · exact ⟨body, packed.1, rfl⟩
    · exact ihb packed.1 mem
    · exact ihr packed.2 mem

/-- What a writer keeps of the depth is that of the loops. -/
theorem depth_of_write (w : ScriptWriter) (packed : c.all Op.isPacked = true) :
    (w.write c).2.draft.depth = c.depth := by
  have body : writeBody 0 c [] {} = _ := writeBody_eq packed [] (Nat.le_refl 0)
  simp only [write, body]
  simp

/-! ### The order in which loops open -/

theorem opened_cons {s : Statement} (other : ∀ loop, s ≠ .call loop) (inside : Nat → List Nat)
    (behind : List Statement) :
    Statement.opened inside (s :: behind) = Statement.opened inside behind := by
  cases s with
  | call loop => exact (other loop rfl).elim
  | _ => rfl

/-- **The statements of a body open the loops of the body in the order of their numbers**, if each
of them opens the loops in its own body so. -/
theorem opened_statements (packed : c.all Op.isPacked = true) {inside : Nat → List Nat}
    (known : ∀ entry ∈ bodiesFrom number c,
      inside entry.1 = List.range' (entry.1 + 1) entry.2.loops) :
    Statement.opened inside (statements number c) = List.range' number c.loops := by
  induction c generalizing number with
  | nil => rfl
  | leaf op rest ih =>
    obtain ⟨s, other, first, packed⟩ := exists_statement packed number
    rw [first, opened_cons other]
    exact ih packed known
  | loop body rest _ ihr =>
    simp only [Code.all, Bool.and_eq_true] at packed
    simp only [bodiesFrom, List.mem_cons, List.mem_append] at known
    have here : inside number = List.range' (number + 1) body.loops := known _ (.inl rfl)
    have behind := ihr packed.2 fun entry mem => known entry (.inr (.inr mem))
    simp only [statements, Statement.opened, here, behind, Code.loops, range'_loop]

end ScriptWriter

namespace Script
open ScriptWriter

variable {c : Packed} {number : Nat}

theorem openedIn_append (functions : List (List Statement)) (later : List (Nat × List Statement))
    {loop : Nat} (past : number + functions.length ≤ loop) :
    openedIn (numbered number functions ++ later) loop = openedIn later loop := by
  induction functions generalizing number with
  | nil => rfl
  | cons statements functions ih =>
    rw [List.length_cons] at past
    have other : loop ≠ number := by omega
    rw [numbered, List.cons_append, openedIn]
    exact (if_neg other).trans (ih (by omega))

/-- **The function of a loop opens the loops in its body in the order of their numbers.** -/
theorem openedIn_numbered (packed : c.all Op.isPacked = true) (number : Nat)
    (later : List (Nat × List Statement)) :
    ∀ entry ∈ bodiesFrom number c,
      openedIn (numbered number (functionsFrom number c) ++ later) entry.1 =
        List.range' (entry.1 + 1) entry.2.loops := by
  induction c generalizing number later with
  | nil => exact fun entry mem => nomatch mem
  | leaf op rest ih =>
    simp only [Code.all, Bool.and_eq_true] at packed
    exact ih packed.2 number later
  | loop body rest ihb ihr =>
    simp only [Code.all, Bool.and_eq_true] at packed
    have length := length_functionsFrom (number + 1) body
    intro entry mem
    simp only [functionsFrom, numbered, numbered_append, length, List.cons_append,
      List.append_assoc, openedIn]
    have inner := ihb packed.1 (number + 1)
      (numbered (number + 1 + body.loops) (functionsFrom (number + 1 + body.loops) rest) ++ later)
    rcases List.mem_cons.1 mem with rfl | mem
    · rw [if_pos rfl]
      exact opened_statements packed.1 inner
    rcases List.mem_append.1 mem with mem | mem
    · have bounds := bounds_of_mem_bodiesFrom mem
      rw [if_neg (by omega), inner entry mem]
    · have bounds := bounds_of_mem_bodiesFrom mem
      rw [if_neg (by omega), openedIn_append _ _ (by omega), ihr packed.2 _ later entry mem]

/-! ### The lines that begin functions -/

theorem filter_isOpening_gap : gap.filter isOpening = [] := by decide

/-- A function has one line that begins it. -/
theorem filter_isOpening_function {opening : Text} {lines : List Text}
    (h : isOpening opening = true) (plain : ∀ line ∈ lines, isOpening line = false) :
    (gap ++ opening :: lines).filter isOpening = [opening] := by
  have none : lines.filter isOpening = [] :=
    List.filter_eq_nil_iff.2 fun line mem => by simp [plain line mem]
  rw [List.filter_append, filter_isOpening_gap, List.filter_cons_of_pos h, none]
  rfl

theorem filter_isOpening_loopFunctions (number : Nat) (functions : List (List Statement)) :
    (loopFunctions number functions).filter isOpening =
      (List.range' number functions.length).map loopOpening := by
  induction functions generalizing number with
  | nil => rfl
  | cons statements functions ih =>
    have first : (loopFunction number statements).filter isOpening = [loopOpening number] :=
      filter_isOpening_function rfl (isOpening_of_mem_loop statements)
    rw [loopFunctions, List.filter_append, first, ih, List.length_cons, List.range'_succ]
    rfl

/-- The first line of the last function. -/
def lastOpening : Text := "def main():"

/-- **The functions of a script are those of the loops, in the order of their numbers, then that of
the top level and one that runs it.** -/
theorem filter_isOpening_lines (s : Script) :
    s.lines.filter isOpening =
      (List.range s.functions.size).map loopOpening ++ [mainOpening, lastOpening] := by
  have top : s.header.filter isOpening = [] := rfl
  have loops := filter_isOpening_loopFunctions 0 s.functions.toList
  have main : (runFunction s.main).filter isOpening = [mainOpening] :=
    filter_isOpening_function (by decide) (isOpening_of_mem_main s.main)
  have last : footer.filter isOpening = [lastOpening] := by decide
  rw [lines, List.filter_append, List.filter_append, List.filter_append, top, loops, main, last,
    List.range_eq_range', Array.length_toList]
  simp

/-! ### Whole scripts -/

theorem map_fst_numbered (number : Nat) (functions : List (List Statement)) :
    (numbered number functions).map Prod.fst = List.range' number functions.length := by
  induction functions generalizing number with
  | nil => rfl
  | cons statements functions ih =>
    rw [numbered, List.map_cons, ih, List.length_cons, List.range'_succ]

theorem flatMap_snd_numbered (number : Nat) (functions : List (List Statement)) :
    (numbered number functions).flatMap (·.2) = functions.flatten := by
  induction functions generalizing number with
  | nil => rfl
  | cons statements functions ih => rw [numbered, List.flatMap_cons, ih, List.flatten_cons]

/-- What a script of packed code says. -/
def contentsOf (policy : EndOfInput) (c : Packed) : Contents :=
  { policy
    depth := c.depth
    functions := numbered 0 (functionsFrom 0 c)
    main := ScriptWriter.statements 0 c }

theorem forms_contentsOf (policy : EndOfInput) (packed : c.all Op.isPacked = true) :
    (contentsOf policy c).Forms c := by
  have statements : (contentsOf policy c).statements =
      ScriptWriter.statements 0 c ++ (functionsFrom 0 c).flatten :=
    congrArg (_ ++ ·) (flatMap_snd_numbered 0 (functionsFrom 0 c))
  have bodies : bodies? (contentsOf policy c).functions = some (bodiesFrom 0 c) := by
    have all := bodies?_numbered packed 0 (show bodies? [] = some [] from rfl)
    rwa [List.append_nil, List.append_nil] at all
  constructor
  case numbers =>
    rw [List.range_eq_range', ← length_functionsFrom 0 c]
    exact map_fst_numbered 0 (functionsFrom 0 c)
  case order =>
    have inside := openedIn_numbered packed 0 []
    rw [List.append_nil] at inside
    rw [List.range_eq_range']
    exact opened_statements packed inside
  case bodies => rw [bodies, bodiesFrom_eq_zip, List.range_eq_range']
  case code =>
    have main : Statement.code? ([] ++ (bodiesFrom 0 c ++ [])) (ScriptWriter.statements 0 c) =
        some c := code?_statements packed [] (by simp) []
    rw [List.nil_append, List.append_nil] at main
    rw [Contents.code?, bodies, Option.bind_some]
    exact main
  case called =>
    intro loop
    rw [statements, List.count_append, count_call packed, ← List.range_eq_range',
      List.nodup_range.count]
    simp only [List.mem_range]
  case later =>
    intro entry mem loop call
    obtain ⟨body, inside, same⟩ := exists_body_of_mem packed mem
    rw [← same] at call
    exact le_of_call_mem inside call
  case size => rw [statements, List.length_append, length_statements packed 0]
  case depth => rfl

end Script

/-- **The functions of a script form exactly the tree of the loops.** For any packed code a script
is written. The lines of it that begin functions are those of the functions of the loops, in the
order of their numbers, and two more. What is read from its text forms the tree of the loops, and
the writer has kept the depth that it states. Numbers are written in full here, however long they
are; the limit of digits is kept for numbers that are given (`IntegerLiteral.digitLimit`). -/
theorem script_forms_loop_tree (w : ScriptWriter) {c : Packed}
    (packed : c.all Op.isPacked = true) :
    ∃ s contents, (w.write c).1 = .ok s ∧ (w.write c).2.draft.depth = c.depth ∧
      s.lines.filter Script.isOpening =
        (List.range c.loops).map Script.loopOpening ++ [Script.mainOpening, Script.lastOpening] ∧
      Script.contents? s.text = some contents ∧ contents.Forms c := by
  refine ⟨_, Script.contentsOf w.policy c, ScriptWriter.write_eq w packed,
    ScriptWriter.depth_of_write w packed, ?_, ?_, Script.forms_contentsOf w.policy packed⟩
  · rw [Script.filter_isOpening_lines, List.size_toArray, ScriptWriter.length_functionsFrom]
  · exact Script.contents?_text _

theorem script_forms_loop_tree_nested :
    ∃ s contents, ((ScriptWriter.make (.text "2") .unchanged none).write Packed.nested).1 = .ok s ∧
      ((ScriptWriter.make (.text "2") .unchanged none).write Packed.nested).2.draft.depth = 2 ∧
      s.lines.filter Script.isOpening =
        (List.range 4).map Script.loopOpening ++ [Script.mainOpening, Script.lastOpening] ∧
      Script.contents? s.text = some contents ∧ contents.Forms Packed.nested :=
  script_forms_loop_tree (ScriptWriter.make (.text "2") .unchanged none) (by decide)

end TapeLang
