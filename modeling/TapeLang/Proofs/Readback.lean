import TapeLang.Proofs.Bodies
import TapeLang.Proofs.Scripts
import TapeLang.Script.Reading

/-! A script says what the packed code it was written from says.

Every part of a script is read back from its text: numbers (`Numeral.integer?_integer`), statements
(`Statement.ofText?_text`), and the policy, the functions and the top level of the whole script
(`Script.contents?_text`), whatever stands in its comments. A writer puts the functions of a body
behind the function that calls them, so bodies can be read from the last function to the first, and
each call finds the body of its loop (`Script.bodies?_numbered`). Together these give back the
packed code, operation by operation (`read_of_write`). -/
namespace TapeLang

theorem between?_append {α : Type} [BEq α] [LawfulBEq α] (front list back : List α) :
    between? front back (front ++ list ++ back) = some list := by
  have opened : (front ++ list ++ back).dropPrefix? front = some (list ++ back) :=
    List.dropPrefix?_eq_some_iff.2 ⟨front, List.append_assoc .., BEq.rfl⟩
  have closed : (list ++ back).dropSuffix? back = some list :=
    List.dropSuffix?_eq_some_iff.2 ⟨back, rfl, BEq.rfl⟩
  rw [between?, opened, Option.bind_some, closed]

theorem operand?_append {α : Type} {read : Text → Option α} {inner : Text} {value : α}
    (h : read inner = some value) (front back : Text) :
    operand? front read back (front ++ inner ++ back) = some value := by
  rw [operand?, between?_append, Option.bind_some, h]

/-! ### Statements -/

namespace Statement

/-- Every statement is read back from its text, whatever its operand. -/
theorem ofText?_text (s : Statement) : ofText? s.text = some s := by
  cases s with
  | add amount =>
    have here : added? (add amount).text = some amount :=
      operand?_append (Numeral.integer?_integer amount) _ _
    rw [ofText?, here]
    rfl
  | move distance =>
    by_cases forward : 0 < distance
    · have text : (move distance).text = "tape.advance(" ++ Numeral.integer distance ++ ")" :=
        if_pos forward
      have not_added : added? (move distance).text = none := text ▸ rfl
      have here : advanced? (move distance).text = some distance :=
        text ▸ operand?_append (Numeral.integer?_integer distance) _ _
      rw [ofText?, not_added, here]
      rfl
    · have text : (move distance).text = "tape.retreat(" ++ Numeral.integer (-distance) ++ ")" :=
        if_neg forward
      have not_added : added? (move distance).text = none := text ▸ rfl
      have not_advanced : advanced? (move distance).text = none := text ▸ rfl
      have here : retreated? (move distance).text = some (-distance) :=
        text ▸ operand?_append (Numeral.integer?_integer (-distance)) _ _
      rw [ofText?, not_added, not_advanced, here]
      exact congrArg (fun n => some (move n)) (Int.neg_neg distance)
  | call loop =>
    have not_added : added? (call loop).text = none := rfl
    have not_advanced : advanced? (call loop).text = none := rfl
    have not_retreated : retreated? (call loop).text = none := rfl
    have here : called? (call loop).text = some loop :=
      operand?_append (Numeral.natural?_natural loop) _ _
    rw [ofText?, not_added, not_advanced, not_retreated, here]
    rfl
  | clear => decide
  | output => decide
  | input => decide

theorem unbroken_text (s : Statement) : CodePoint.char '\n' ∉ s.text := by
  have around : ∀ {front inner back : Text}, CodePoint.char '\n' ∉ front →
      CodePoint.char '\n' ∉ inner → CodePoint.char '\n' ∉ back →
      CodePoint.char '\n' ∉ front ++ inner ++ back := by
    intro front inner back hfront hinner hback
    simp only [List.mem_append, not_or]
    exact ⟨⟨hfront, hinner⟩, hback⟩
  have integer : ∀ n, CodePoint.char '\n' ∉ Numeral.integer n :=
    fun n mem => (Numeral.unbroken_integer n _ mem).1 rfl
  cases s with
  | add amount => exact around (by decide) (integer amount) (by decide)
  | move distance =>
    rw [text]
    split
    · exact around (by decide) (integer distance) (by decide)
    · exact around (by decide) (integer (-distance)) (by decide)
  | call loop =>
    exact around (by decide) (fun mem => (Numeral.unbroken_natural loop _ mem).1 rfl) (by decide)
  | clear => decide
  | output => decide
  | input => decide

end Statement

namespace Script

/-- The statements of a block are read back line by line. -/
theorem mapM_block (level : Nat) (statements : List Statement) :
    (block level statements).mapM (Statement.ofLine? level) = some statements := by
  induction statements with
  | nil => rfl
  | cons s statements ih =>
    have line : Statement.ofLine? level (.replicate (4 * level) ' ' ++ s.text) = some s := by
      have text : List.dropPrefix? (.replicate (4 * level) ' ' ++ s.text)
          (.replicate (4 * level) (CodePoint.char ' ')) = some s.text :=
        List.dropPrefix?_eq_some_iff.2 ⟨_, rfl, BEq.rfl⟩
      rw [Statement.ofLine?, text, Option.bind_some, Statement.ofText?_text]
    have rest : (statements.map fun s => .replicate (4 * level) (CodePoint.char ' ') ++ s.text).mapM
        (Statement.ofLine? level) = some statements := ih
    simp only [block, List.map_cons, List.mapM_cons, line, rest]
    rfl

/-! ### Lines behind the policy -/

/-- What can be behind the line of the policy: a line that is cut nowhere and sets no policy. -/
structure Behind (line : Text) : Prop where
  unbroken : CodePoint.char '\n' ∉ line
  silent : line.head? ≠ some (.char 'E')

instance (line : Text) : Decidable (Behind line) :=
  decidable_of_iff (CodePoint.char '\n' ∉ line ∧ line.head? ≠ some (.char 'E'))
    ⟨fun h => ⟨h.1, h.2⟩, fun h => ⟨h.1, h.2⟩⟩

/-- A line of a function is indented. -/
theorem indented_of_mem_block {level : Nat} {statements : List Statement} {line : Text}
    (mem : line ∈ block (level + 1) statements) :
    CodePoint.char '\n' ∉ line ∧ ∃ rest, line = .char ' ' :: rest := by
  obtain ⟨s, -, rfl⟩ := List.mem_map.1 mem
  refine ⟨?_, .replicate (4 * level + 3) (.char ' ') ++ s.text, rfl⟩
  simp only [List.mem_append, not_or]
  refine ⟨fun mem => ?_, s.unbroken_text⟩
  exact absurd (List.eq_of_mem_replicate mem) (by decide)

theorem behind_of_mem_block {level : Nat} {statements : List Statement} {line : Text}
    (mem : line ∈ block (level + 1) statements) : Behind line := by
  obtain ⟨unbroken, rest, rfl⟩ := indented_of_mem_block mem
  exact ⟨unbroken, by simp⟩

theorem isOpening_of_mem_block {level : Nat} {statements : List Statement} {line : Text}
    (mem : line ∈ block (level + 1) statements) : isOpening line = false := by
  obtain ⟨-, rest, rfl⟩ := indented_of_mem_block mem
  rfl

/-- The lines of the function of a loop below its first ones. -/
def loopLines (statements : List Statement) : List Text :=
  if statements.isEmpty then noStatements else block 2 statements

theorem mem_loopLines {statements : List Statement} {line : Text}
    (mem : line ∈ loopLines statements) : line ∈ noStatements ∨ line ∈ block 2 statements := by
  unfold loopLines at mem
  split at mem
  · exact .inl mem
  · exact .inr mem

def loopOpening (number : Nat) : Text :=
  "def _loop_" ++ Numeral.natural number ++ "(tape, source, sink):"

theorem loopFunction_eq (number : Nat) (statements : List Statement) :
    loopFunction number statements =
      gap ++ loopOpening number :: (loopHead ++ loopLines statements) := rfl

theorem runFunction_eq (statements : List Statement) :
    runFunction statements =
      gap ++ mainOpening :: (mainHead ++ block 1 statements ++ [mainEnd]) := rfl

theorem behind_loopFunctions (number : Nat) (functions : List (List Statement)) :
    ∀ line ∈ loopFunctions number functions, Behind line := by
  induction functions generalizing number with
  | nil => exact fun line mem => nomatch mem
  | cons statements functions ih =>
    have fixed : ∀ line ∈ gap ++ loopHead ++ noStatements, Behind line := by decide
    simp only [List.mem_append] at fixed
    intro line mem
    simp only [loopFunctions, loopFunction_eq, List.mem_append, List.mem_cons] at mem
    rcases mem with (mem | rfl | mem | mem) | mem
    · exact fixed line (.inl (.inl mem))
    · refine ⟨?_, nofun⟩
      simp only [loopOpening, List.mem_append, not_or]
      exact ⟨⟨by decide, fun mem => (Numeral.unbroken_natural number _ mem).1 rfl⟩, by decide⟩
    · exact fixed line (.inl (.inr mem))
    · rcases mem_loopLines mem with mem | mem
      · exact fixed line (.inr mem)
      · exact behind_of_mem_block mem
    · exact ih (number + 1) line mem

theorem behind_runFunction (statements : List Statement) :
    ∀ line ∈ runFunction statements, Behind line := by
  have fixed : ∀ line ∈ gap ++ mainOpening :: mainHead ++ [mainEnd], Behind line := by decide
  simp only [List.mem_append, List.mem_cons] at fixed
  intro line mem
  simp only [runFunction_eq, List.mem_append, List.mem_cons] at mem
  rcases mem with mem | mem | (mem | mem) | mem
  · exact fixed line (.inl (.inl mem))
  · exact fixed line (.inl (.inr (.inl mem)))
  · exact fixed line (.inl (.inr (.inr mem)))
  · exact behind_of_mem_block mem
  · exact fixed line (.inr mem)

/-! ### The policy -/

def policyLine (p : EndOfInput) : Text := "EOF_POLICY = EofPolicy." ++ p.constant

def linesBehind (s : Script) : List Text :=
  ("LOOP_DEPTH = " ++ Numeral.natural s.depth) ::
    (loopFunctions 0 s.functions.toList ++ (runFunction s.main ++ footer))

theorem behind_linesBehind (s : Script) : ∀ line ∈ s.linesBehind, Behind line := by
  have last : ∀ line ∈ footer, Behind line := by decide
  have depth : Behind ("LOOP_DEPTH = " ++ Numeral.natural s.depth) := by
    refine ⟨?_, nofun⟩
    simp only [List.mem_append, not_or]
    exact ⟨by decide, fun mem => (Numeral.unbroken_natural s.depth _ mem).1 rfl⟩
  intro line mem
  simp only [linesBehind, List.mem_cons, List.mem_append] at mem
  rcases mem with rfl | mem | mem | mem
  · exact depth
  · exact behind_loopFunctions 0 _ line mem
  · exact behind_runFunction s.main line mem
  · exact last line mem

/-- Cut into lines, a script is some lines, the line of the policy and the lines behind it. -/
theorem split_text (s : Script) :
    ∃ front, Lines.split s.text = front ++ policyLine s.policy :: (s.linesBehind ++ [[]]) := by
  obtain ⟨front, lines⟩ : ∃ front, s.lines = front ++ policyLine s.policy :: s.linesBehind := by
    refine ⟨s.header.take 8, ?_⟩
    simp only [lines, header, linesBehind, List.take, List.cons_append, List.nil_append,
      List.append_assoc]
    rfl
  have unbroken : CodePoint.char '\n' ∉ policyLine s.policy := by
    cases s.policy <;> decide
  refine ⟨front.flatMap Lines.split, ?_⟩
  rw [text, Lines.split_close, lines, List.flatMap_append, List.flatMap_cons,
    Lines.split_of_unbroken unbroken,
    Lines.flatMap_split_of_unbroken fun line mem => (s.behind_linesBehind line mem).unbroken]
  simp only [List.append_assoc, List.cons_append, List.nil_append]

theorem policyOf?_policyLine (p : EndOfInput) : policyOf? (policyLine p) = some p := by
  cases p <;> decide

theorem policyOf?_of_behind {line : Text} (h : Behind line) : policyOf? line = none := by
  rw [policyOf?, List.find?_eq_none]
  intro p _ same
  simp only [decide_eq_true_eq] at same
  subst same
  exact h.silent rfl

theorem lastPolicy?_of_behind {lines : List Text} (h : ∀ line ∈ lines, Behind line) :
    lastPolicy? lines = none := by
  induction lines with
  | nil => rfl
  | cons line lines ih =>
    obtain ⟨here, rest⟩ := List.forall_mem_cons.1 h
    rw [lastPolicy?, ih rest, policyOf?_of_behind here]
    rfl

theorem lastPolicy?_append {line : Text} {lines : List Text} {p : EndOfInput}
    (here : policyOf? line = some p) (last : lastPolicy? lines = none) (front : List Text) :
    lastPolicy? (front ++ line :: lines) = some (p, lines) := by
  induction front with
  | nil =>
    rw [List.nil_append, lastPolicy?, last, here]
    rfl
  | cons first front ih =>
    rw [List.cons_append, lastPolicy?, ih]
    rfl

theorem lastPolicy?_split (s : Script) :
    lastPolicy? (Lines.split s.text) = some (s.policy, s.linesBehind ++ [[]]) := by
  obtain ⟨front, split⟩ := s.split_text
  rw [split]
  refine lastPolicy?_append (policyOf?_policyLine s.policy) (lastPolicy?_of_behind ?_) front
  intro line mem
  rcases List.mem_append.1 mem with mem | mem
  · exact s.behind_linesBehind line mem
  · exact (by decide : ∀ line ∈ [([] : Text)], Behind line) line mem

/-! ### Functions -/

theorem sections_append {lines : List Text} (plain : ∀ line ∈ lines, isOpening line = false)
    (rest : List Text) :
    sections (lines ++ rest) = (lines ++ (sections rest).1, (sections rest).2) := by
  induction lines with
  | nil => rfl
  | cons line lines ih =>
    obtain ⟨here, later⟩ := List.forall_mem_cons.1 plain
    simp only [List.cons_append, sections, ih later, here]
    rfl

/-- A function is cut off together with the lines that follow it up to the next one. -/
theorem sections_function {opening : Text} {lines : List Text} (h : isOpening opening = true)
    (plain : ∀ line ∈ lines, isOpening line = false) (rest : List Text) :
    sections (gap ++ opening :: (lines ++ rest)) =
      (gap, (opening, lines ++ (sections rest).1) :: (sections rest).2) := by
  have around : ∀ line ∈ gap, isOpening line = false := by decide
  have here : sections (opening :: (lines ++ rest)) =
      ([], (opening, lines ++ (sections rest).1) :: (sections rest).2) := by
    simp only [sections, sections_append plain, h]
    rfl
  rw [sections_append around, here, List.append_nil]

/-- No line in the function of a loop begins another function. -/
theorem isOpening_of_mem_loop (statements : List Statement) :
    ∀ line ∈ loopHead ++ loopLines statements, isOpening line = false := by
  have fixed : ∀ line ∈ loopHead ++ noStatements, isOpening line = false := by decide
  simp only [List.mem_append] at fixed
  intro line mem
  rcases List.mem_append.1 mem with mem | mem
  · exact fixed line (.inl mem)
  · rcases mem_loopLines mem with mem | mem
    · exact fixed line (.inr mem)
    · exact isOpening_of_mem_block mem

/-- No line in the function of the top level begins another function. -/
theorem isOpening_of_mem_main (statements : List Statement) :
    ∀ line ∈ mainHead ++ block 1 statements ++ [mainEnd], isOpening line = false := by
  have fixed : ∀ line ∈ mainHead ++ [mainEnd], isOpening line = false := by decide
  simp only [List.mem_append] at fixed ⊢
  rintro line ((mem | mem) | mem)
  · exact fixed line (.inl mem)
  · exact isOpening_of_mem_block mem
  · exact fixed line (.inr mem)

/-- The functions of loops as they are cut off. -/
def loopSections (number : Nat) : List (List Statement) → List (Text × List Text)
  | [] => []
  | statements :: functions =>
    (loopOpening number, loopHead ++ loopLines statements ++ gap) ::
      loopSections (number + 1) functions

theorem sections_loopFunctions {rest : List Text} (top : (sections rest).1 = gap) (number : Nat)
    (functions : List (List Statement)) :
    sections (loopFunctions number functions ++ rest) =
      (gap, loopSections number functions ++ (sections rest).2) := by
  induction functions generalizing number with
  | nil =>
    rw [← top]
    rfl
  | cons statements functions ih =>
    have cut := sections_function (show isOpening (loopOpening number) = true from rfl)
      (isOpening_of_mem_loop statements) (loopFunctions (number + 1) functions ++ rest)
    rw [ih] at cut
    simp only [loopFunctions, loopFunction_eq, List.append_assoc, List.cons_append] at cut ⊢
    rw [cut]
    rfl

theorem sections_runFunction (statements : List Statement) (rest : List Text) :
    sections (runFunction statements ++ rest) =
      (gap, (mainOpening, mainHead ++ block 1 statements ++ mainEnd :: (sections rest).1) ::
        (sections rest).2) := by
  have cut := sections_function (show isOpening mainOpening = true by decide)
    (isOpening_of_mem_main statements) rest
  simp only [runFunction_eq, List.append_assoc, List.cons_append, List.nil_append] at cut ⊢
  rw [cut]

/-- The functions with their numbers, in order. -/
def numbered (number : Nat) : List (List Statement) → List (Nat × List Statement)
  | [] => []
  | statements :: functions => (number, statements) :: numbered (number + 1) functions

theorem loopStatements?_loopLines (statements : List Statement) :
    loopStatements? (loopLines statements) = some statements := by
  cases statements with
  | nil => exact if_pos rfl
  | cons s statements =>
    have read := mapM_block 2 (s :: statements)
    have other : block 2 (s :: statements) ≠ noStatements := by
      intro same
      rw [same] at read
      exact nomatch (show noStatements.mapM (Statement.ofLine? 2) = none by decide).symm.trans read
    exact (if_neg other).trans read

theorem loopOf?_section (number : Nat) (statements : List Statement) :
    loopOf? (loopOpening number, loopHead ++ loopLines statements ++ gap) =
      some (number, statements) := by
  have here : operand? (Text.ofString "def _loop_") Numeral.natural?
      (Text.ofString "(tape, source, sink):") (loopOpening number) = some number :=
    operand?_append (Numeral.natural?_natural number) _ _
  simp only [loopOf?, here, between?_append, loopStatements?_loopLines, bind, Option.bind]
  rfl

theorem mapM_loopSections (number : Nat) (functions : List (List Statement)) :
    (loopSections number functions).mapM loopOf? = some (numbered number functions) := by
  induction functions generalizing number with
  | nil => rfl
  | cons statements functions ih =>
    simp only [loopSections, List.mapM_cons, loopOf?_section, ih, numbered]
    rfl

/-- No function of a loop is taken for the one of the top level. -/
theorem opening_ne_main {number : Nat} {functions : List (List Statement)}
    {entry : Text × List Text} (mem : entry ∈ loopSections number functions) :
    entry.1 ≠ mainOpening := by
  induction functions generalizing number with
  | nil => exact nomatch mem
  | cons statements functions ih =>
    rcases List.mem_cons.1 mem with rfl | mem
    · intro same
      have fifth : some (CodePoint.char '_') = some (CodePoint.char 'r') :=
        congrArg (·[4]?) same
      exact absurd fifth (by decide)
    · exact ih mem

theorem takeWhile_loopSections (functions : List (List Statement)) (lines : List Text)
    (last : List (Text × List Text)) :
    (loopSections 0 functions ++ (mainOpening, lines) :: last).takeWhile (·.1 ≠ mainOpening) =
      loopSections 0 functions := by
  rw [List.takeWhile_append_of_pos fun entry mem => by simpa using opening_ne_main mem]
  simp

theorem lookup_loopSections (functions : List (List Statement)) (lines : List Text)
    (last : List (Text × List Text)) :
    (loopSections 0 functions ++ (mainOpening, lines) :: last).lookup mainOpening = some lines := by
  have none : (loopSections 0 functions).lookup mainOpening = none :=
    List.lookup_eq_none_iff.2 fun entry mem => by simpa using (opening_ne_main mem).symm
  rw [List.lookup_append, none, Option.none_or, List.lookup_cons_self]

theorem mainOf?_section (statements : List Statement) :
    mainOf? (mainHead ++ block 1 statements ++ mainEnd :: gap) = some statements := by
  rw [mainOf?, between?_append, Option.bind_some, mapM_block]

/-! ### Whole scripts -/

theorem depthOf?_gap (depth : Nat) :
    depthOf? (("LOOP_DEPTH = " ++ Numeral.natural depth) :: gap) = some depth := by
  have line : between? [] gap (("LOOP_DEPTH = " ++ Numeral.natural depth) :: gap) =
      some [Text.ofString "LOOP_DEPTH = " ++ Numeral.natural depth] :=
    between?_append [] [Text.ofString "LOOP_DEPTH = " ++ Numeral.natural depth] gap
  have here := operand?_append (Numeral.natural?_natural depth) (Text.ofString "LOOP_DEPTH = ") []
  rw [List.append_nil] at here
  simp only [depthOf?, line, here]

/-- Behind its policy a script is its depth, the functions of its loops, that of the top level, and
something that is none of these. -/
theorem sections_linesBehind (s : Script) :
    ∃ last, sections (s.linesBehind ++ [[]]) =
      (("LOOP_DEPTH = " ++ Numeral.natural s.depth) :: gap,
        loopSections 0 s.functions.toList ++
          (mainOpening, mainHead ++ block 1 s.main ++ mainEnd :: gap) :: last) := by
  obtain ⟨last, after⟩ : ∃ last, sections (footer ++ [[]]) = (gap, last) := ⟨_, by rfl⟩
  have main : sections (runFunction s.main ++ (footer ++ [[]])) =
      (gap, (mainOpening, mainHead ++ block 1 s.main ++ mainEnd :: gap) :: last) := by
    rw [sections_runFunction, after]
  have loops := sections_loopFunctions (congrArg Prod.fst main) 0 s.functions.toList
  rw [main] at loops
  refine ⟨last, ?_⟩
  simp only [linesBehind, List.cons_append, List.append_assoc, sections, loops]
  rfl

/-- **A script is read back from its text**, whatever its source is called and whatever is shown of
its level. -/
theorem contents?_text (s : Script) : contents? s.text = some
    { policy := s.policy
      depth := s.depth
      functions := numbered 0 s.functions.toList
      main := s.main } := by
  obtain ⟨last, cut⟩ := s.sections_linesBehind
  simp only [contents?, lastPolicy?_split, cut, depthOf?_gap, takeWhile_loopSections,
    mapM_loopSections, lookup_loopSections, mainOf?_section, bind, Option.bind]
  rfl

/-! ### Code -/

/-- The bodies of the loops of a body whose first loop has the given number, by their numbers. -/
def bodiesFrom (number : Nat) : Packed → List (Nat × Packed)
  | .nil => []
  | .leaf _ rest => bodiesFrom number rest
  | .loop body rest =>
    (number, body) :: (bodiesFrom (number + 1) body ++ bodiesFrom (number + 1 + body.loops) rest)

/-- The numbers of a loop, of the loops in its body and of those behind it follow one another. -/
theorem range'_loop (number inner outer : Nat) :
    List.range' number (inner + outer + 1) =
      number :: (List.range' (number + 1) inner ++ List.range' (number + 1 + inner) outer) := by
  rw [List.range'_succ, List.range'_append_1]

theorem length_innerBodies {α : Type} (c : Code α) : c.innerBodies.length = c.loops := by
  induction c with
  | nil => rfl
  | leaf a rest ih => exact ih
  | loop body rest ihb ihr =>
    simp only [Code.innerBodies, List.length_cons, List.length_append, ihb, ihr, Code.loops]

/-- The bodies of loops are numbered in the order in which the loops open. -/
theorem bodiesFrom_eq_zip (number : Nat) (c : Packed) :
    bodiesFrom number c = (List.range' number c.loops).zip c.innerBodies := by
  induction c generalizing number with
  | nil => rfl
  | leaf op rest ih => exact ih number
  | loop body rest ihb ihr =>
    have even : (List.range' (number + 1) body.loops).length = body.innerBodies.length := by
      rw [List.length_range', length_innerBodies]
    simp only [bodiesFrom, Code.loops, Code.innerBodies, range'_loop, List.zip_cons_cons,
      List.zip_append even, ihb, ihr]

theorem bounds_of_mem_bodiesFrom {number : Nat} {c : Packed} {entry : Nat × Packed}
    (mem : entry ∈ bodiesFrom number c) : number ≤ entry.1 ∧ entry.1 < number + c.loops := by
  rw [bodiesFrom_eq_zip] at mem
  exact List.mem_range'_1.1 (List.of_mem_zip mem).1

theorem onto?_ofOp {bodies : List (Nat × Packed)} {op : Op} {s : Statement}
    (h : Statement.ofOp op = .ok s) (rest : Packed) :
    s.onto? bodies rest = some (.leaf op rest) := by
  match op, h with
  | .add amount, rfl => rfl
  | .move distance, rfl => rfl
  | .clear, rfl => rfl
  | .plain .output, rfl => rfl
  | .plain .input, rfl => rfl

/-- **The statements of a body stand for the body**, if the bodies of its loops are known by their
numbers. -/
theorem code?_statements {c : Packed} (packed : c.all Op.isPacked = true) {number : Nat}
    (before : List (Nat × Packed)) (earlier : ∀ entry ∈ before, entry.1 < number)
    (after : List (Nat × Packed)) :
    Statement.code? (before ++ (bodiesFrom number c ++ after))
      (ScriptWriter.statements number c) = some c := by
  induction c generalizing number before with
  | nil => rfl
  | leaf op rest ih =>
    simp only [Code.all, Bool.and_eq_true] at packed
    obtain ⟨s, hs⟩ := Statement.ofOp_of_isPacked packed.1
    simp only [ScriptWriter.statements, hs, Statement.code?, bodiesFrom, ih packed.2 before earlier,
      Option.bind_some, onto?_ofOp hs]
  | loop body rest _ ihr =>
    simp only [Code.all, Bool.and_eq_true] at packed
    have none : before.lookup number = none :=
      List.lookup_eq_none_iff.2 fun entry mem => by simpa using Nat.ne_of_gt (earlier entry mem)
    -- For what follows the loop, the loops of its body are earlier ones.
    have earlier' : ∀ entry ∈ before ++ (number, body) :: bodiesFrom (number + 1) body,
        entry.1 < number + 1 + body.loops := by
      intro entry mem
      simp only [List.mem_append, List.mem_cons] at mem
      rcases mem with mem | rfl | mem
      · have := earlier entry mem
        omega
      · show number < _
        omega
      · exact (bounds_of_mem_bodiesFrom mem).2
    have read := ihr packed.2 _ earlier'
    simp only [List.append_assoc, List.cons_append] at read
    simp only [ScriptWriter.statements, Statement.code?, bodiesFrom, List.cons_append,
      List.append_assoc, read, Option.bind_some, Statement.onto?, List.lookup_append, none,
      Option.none_or, List.lookup_cons_self, Option.map_some]

theorem numbered_append (number : Nat) (first second : List (List Statement)) :
    numbered number (first ++ second) =
      numbered number first ++ numbered (number + first.length) second := by
  induction first generalizing number with
  | nil => rfl
  | cons statements first ih =>
    simp only [List.cons_append, numbered, ih, List.length_cons, Nat.add_assoc, Nat.add_comm 1]

/-- **The functions of the loops of a body stand for their bodies**, read from the last one to the
first. -/
theorem bodies?_numbered {c : Packed} (packed : c.all Op.isPacked = true) (number : Nat)
    {later : List (Nat × List Statement)} {bodies : List (Nat × Packed)}
    (h : bodies? later = some bodies) :
    bodies? (numbered number (ScriptWriter.functionsFrom number c) ++ later) =
      some (bodiesFrom number c ++ bodies) := by
  induction c generalizing number later bodies with
  | nil => exact h
  | leaf op rest ih =>
    simp only [Code.all, Bool.and_eq_true] at packed
    exact ih packed.2 number h
  | loop body rest ihb ihr =>
    simp only [Code.all, Bool.and_eq_true] at packed
    have inner := ihb packed.1 (number + 1) (ihr packed.2 (number + 1 + body.loops) h)
    have own : Statement.code? (bodiesFrom (number + 1) body ++
        (bodiesFrom (number + 1 + body.loops) rest ++ bodies))
          (ScriptWriter.statements (number + 1) body) = some body :=
      code?_statements packed.1 [] (by simp) _
    simp only [ScriptWriter.functionsFrom, numbered, numbered_append,
      ScriptWriter.length_functionsFrom, bodiesFrom, List.cons_append, List.append_assoc, bodies?,
      inner, own, bind, Option.bind]
    rfl

end Script

/-- A script that is written can be read. -/
theorem Script.read?_of_written {w : ScriptWriter} {c : Packed} {s : Script}
    (packed : c.all Op.isPacked = true) (written : (w.write c).1 = .ok s) :
    Script.read? s.text = some (c, w.policy) := by
  cases (ScriptWriter.write_eq w packed).symm.trans written
  have bodies : Script.bodies? (Script.numbered 0 (ScriptWriter.functionsFrom 0 c)) =
      some (Script.bodiesFrom 0 c) := by
    have all := Script.bodies?_numbered packed 0 (show Script.bodies? [] = some [] from rfl)
    rwa [List.append_nil, List.append_nil] at all
  have main : Statement.code? (Script.bodiesFrom 0 c) (ScriptWriter.statements 0 c) = some c := by
    have whole : Statement.code? ([] ++ (Script.bodiesFrom 0 c ++ []))
        (ScriptWriter.statements 0 c) = some c :=
      Script.code?_statements packed [] (by simp) []
    rwa [List.nil_append, List.append_nil] at whole
  simp only [Script.read?, Script.contents?_text, Script.Contents.code?, bodies, main, bind,
    Option.bind]
  rfl

/-- **The text of a script gives back the packed code it was written from**, operation by operation,
and the policy: whatever the loops, the operands, the level and the name of the source are. Numbers
are written in full here, however long they are; the limit of digits is kept for numbers that are
given (`IntegerLiteral.digitLimit`). -/
theorem read_of_write (w : ScriptWriter) {c : Packed} (packed : c.all Op.isPacked = true) :
    ∃ s, (w.write c).1 = .ok s ∧ Script.read? s.text = some (c, w.policy) :=
  have written := ScriptWriter.write_eq w packed
  ⟨_, written, Script.read?_of_written packed written⟩

/-- Loops inside and beside each other, one of them without a body, and operands of any size. -/
def Packed.nested : Packed :=
  .loop (.loop .nil <| .leaf (.add (-300)) <| .loop (.leaf .clear .nil) .nil) <|
    .leaf (.move 0) <| .leaf (.move (-100000000000000000000)) <|
      .loop (.leaf (.plain .input) .nil) <| .leaf (.plain .output) .nil

/-- Also below a level that is shown on several lines. -/
theorem read_of_write_nested :
    ∃ s, ((ScriptWriter.make (.text "2\nLOOP_DEPTH = 9") .unchanged none).write
        Packed.nested).1 = .ok s ∧
      Script.read? s.text = some (Packed.nested, .unchanged) :=
  read_of_write (ScriptWriter.make (.text "2\nLOOP_DEPTH = 9") .unchanged none) (by decide)

end TapeLang
