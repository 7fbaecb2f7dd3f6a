import TapeLang.Proofs.Bodies
import TapeLang.Proofs.Brackets
import TapeLang.Text.Lines

/-! The lines of a layout.

A body stands in a program inside a number of loops and behind the text that spells what is in front
of it (`Stands`). The layout of a body is a row of lines of its own, whatever surrounds it
(`linesFrom`): the commands since the last bracket are waiting for their line, and a bracket, or the
end of the body, closes it. So each line is blank, a bracket or a whole run of commands, as far in
as its body is deep (`along_linesFrom`), and the lines of a loop are those of its body between two
brackets that are equally far in (`Stands.exists_lines`). Which loop or run a line shows is told
by the symbols in the lines above it (`layout_lines`). -/
namespace TapeLang.Program

/-! ### Places in a program -/

/-- A body stands in a program, inside a number of loops and behind a text that spells everything in
front of it. -/
inductive Stands (p : Program) : Nat → Text → Program → Prop
  | top : Stands p 0 [] p
  | inside {depth : Nat} {before : Text} {front inner rest : Program}
      (around : Stands p depth before (front ++ .loop inner rest)) :
      Stands p (depth + 1) (before ++ front.spelling ++ "[") inner

/-- Whether a body starts with a command. -/
def startsWithCommand : Program → Bool
  | .leaf _ _ => true
  | _ => false

/-- Whether a body ends with a command. -/
def endsWithCommand (p : Program) : Bool := startsWithCommand p.reverse

/-- What a line of a layout is, with the symbols in the lines above it: blank, a bracket of a loop,
or a run of commands that neither follows a command of its body nor is followed by one. -/
inductive Lays (p : Program) (above : Text) : Text → Prop
  | blank : Lays p above []
  | opening {depth : Nat} {before : Text} {front inner rest : Program}
      (around : Stands p depth before (front ++ .loop inner rest))
      (place : above = before ++ front.spelling) :
      Lays p above (indent depth ++ "[")
  | closing {depth : Nat} {before : Text} {front inner rest : Program}
      (around : Stands p depth before (front ++ .loop inner rest))
      (place : above = before ++ front.spelling ++ "[" ++ inner.spelling) :
      Lays p above (indent depth ++ "]")
  | run {depth : Nat} {before : Text} {front rest : Program} {run : List Command}
      (around : Stands p depth before (front ++ run.foldr .leaf rest))
      (place : above = before ++ front.spelling) (some_command : run ≠ [])
      (first : front.endsWithCommand = false) (last : rest.startsWithCommand = false) :
      Lays p above (indent depth ++ run.map Command.symbol)

variable {p : Program} {depth : Nat} {before : Text} {front inner rest : Program}

theorem endsWithCommand_loop (front inner : Program) :
    (front ++ .loop inner .nil : Program).endsWithCommand = false := by
  rw [endsWithCommand, Code.reverse_append]
  rfl

theorem spelling_run (run : List Command) (rest : Program) :
    (run.foldr .leaf rest : Program).spelling = run.map Command.symbol ++ rest.spelling := by
  induction run with
  | nil => rfl
  | cons c run ih => exact congrArg (c.symbol :: ·) ih

/-! ### The lines of a body -/

/-- The line of a run of commands, which is blank if there are none. -/
def runLine (depth : Nat) : List Command → Text
  | [] => []
  | run => indent depth ++ run.map Command.symbol

/-- The line of some commands, unless there are none. -/
def runLines (depth : Nat) : List Command → List Text
  | [] => []
  | run => [runLine depth run]

/-- The lines of the rest of a body, with the commands since the last bracket in front of it. -/
def linesFrom (depth : Nat) : List Command → Program → List Text
  | run, .nil => [runLine depth run]
  | run, .leaf c rest => linesFrom depth (run ++ [c]) rest
  | run, .loop inner rest =>
    runLines depth run ++ (indent depth ++ "[") :: (linesFrom (depth + 1) [] inner ++
      (indent depth ++ "]") :: linesFrom depth [] rest)

theorem linesFrom_ne_nil (depth : Nat) (run : List Command) (p : Program) :
    linesFrom depth run p ≠ [] := by
  induction p generalizing run with
  | nil => exact List.cons_ne_nil _ _
  | leaf c rest ih => exact ih (run ++ [c])
  | loop inner rest => exact List.append_ne_nil_of_right_ne_nil _ (List.cons_ne_nil _ _)

theorem close_runLines (depth : Nat) (run : List Command) :
    Lines.close (runLines depth run) = runLine depth run ++ if run.isEmpty then "" else "\n" := by
  cases run with
  | nil => rfl
  | cons c run =>
    rw [List.isEmpty_cons, if_neg Bool.false_ne_true]
    rfl

/-- A command is laid out on the line of the commands in front of it. -/
theorem runLine_concat (depth : Nat) (run : List Command) (c : Command) :
    runLine depth (run ++ [c]) =
      runLine depth run ++ (if run.isEmpty then indent depth else []) ++ [c.symbol] := by
  cases run with
  | nil => rfl
  | cons d run => simp [runLine]

/-- The layout of a body behind some commands is its lines joined. -/
theorem runLine_append_layoutOnto (depth : Nat) (run : List Command) (p : Program) (text : Text) :
    runLine depth run ++ layoutOnto depth run.isEmpty p text =
      Lines.join (linesFrom depth run p) ++ text := by
  induction p generalizing depth run text with
  | nil => rw [layoutOnto, linesFrom, Lines.join]
  | leaf c rest ih =>
    have more : (run ++ [c]).isEmpty = false := by simp
    rw [linesFrom, ← ih, runLine_concat, more, layoutOnto, List.append_assoc, List.append_assoc,
      List.singleton_append]
  | loop inner rest ihb ihr =>
    have inside (text : Text) : layoutOnto (depth + 1) true inner text =
        Lines.join (linesFrom (depth + 1) [] inner) ++ text := ihb (depth + 1) [] text
    have behind : layoutOnto depth true rest text = Lines.join (linesFrom depth [] rest) ++ text :=
      ihr depth [] text
    have lines := linesFrom_ne_nil (depth + 1) [] inner
    rw [linesFrom, layoutOnto, inside, behind, Lines.join_append _ (List.cons_ne_nil _ _),
      Lines.join_cons _ (List.append_ne_nil_of_left_ne_nil lines _),
      Lines.join_append _ (List.cons_ne_nil _ _),
      Lines.join_cons _ (linesFrom_ne_nil depth [] rest), close_runLines, Lines.close_eq lines]
    have opened : Text.ofString "[\n" = Text.ofString "[" ++ [.char '\n'] := rfl
    have closed : Text.ofString "]\n" = Text.ofString "]" ++ [.char '\n'] := rfl
    have newline : Text.ofString "\n" = [.char '\n'] := rfl
    simp only [opened, closed, newline, List.append_assoc, List.cons_append, List.nil_append]

theorem unbroken_indent (depth : Nat) : CodePoint.char '\n' ∉ indent depth :=
  fun mem => absurd (List.eq_of_mem_replicate mem) (by decide)

theorem unbroken_runLine (depth : Nat) (run : List Command) :
    CodePoint.char '\n' ∉ runLine depth run := by
  have symbols : CodePoint.char '\n' ∉ run.map Command.symbol := by
    intro mem
    obtain ⟨c, -, same⟩ := List.mem_map.1 mem
    cases c <;> exact absurd same (by decide)
  cases run with
  | nil => exact List.not_mem_nil
  | cons c run =>
    rw [runLine, List.mem_append, not_or]
    · exact ⟨unbroken_indent depth, symbols⟩
    · simp

theorem unbroken_of_mem_linesFrom (depth : Nat) (run : List Command) (p : Program) :
    ∀ line ∈ linesFrom depth run p, CodePoint.char '\n' ∉ line := by
  induction p generalizing depth run with
  | nil => exact List.forall_mem_singleton.2 (unbroken_runLine depth run)
  | leaf c rest ih => exact ih depth (run ++ [c])
  | loop inner rest ihb ihr =>
    have bracket : ∀ b ∈ ["[", "]"].map Text.ofString, CodePoint.char '\n' ∉ indent depth ++ b := by
      have unbroken : ∀ b ∈ ["[", "]"].map Text.ofString, CodePoint.char '\n' ∉ b := by decide
      intro b mem
      rw [List.mem_append, not_or]
      exact ⟨unbroken_indent depth, unbroken b mem⟩
    have waiting : ∀ line ∈ runLines depth run, CodePoint.char '\n' ∉ line := by
      cases run with
      | nil => exact List.forall_mem_nil _
      | cons c run => exact List.forall_mem_singleton.2 (unbroken_runLine depth (c :: run))
    refine List.forall_mem_append.2 ⟨waiting, List.forall_mem_cons.2 ⟨bracket _ (by simp), ?_⟩⟩
    exact List.forall_mem_append.2
      ⟨ihb (depth + 1) [], List.forall_mem_cons.2 ⟨bracket _ (by simp), ihr depth []⟩⟩

theorem split_layout (p : Program) : Lines.split p.layout = linesFrom 0 [] p := by
  have joined := runLine_append_layoutOnto 0 [] p []
  rw [List.append_nil] at joined
  show Lines.split (runLine 0 [] ++ layoutOnto 0 true p []) = _
  rw [← Lines.split_join (unbroken_of_mem_linesFrom 0 [] p) (linesFrom_ne_nil 0 [] p), ← joined]
  rfl

/-! ### The symbols in lines -/

/-- What lines spell together. -/
def spelledBy (lines : List Text) : Text := Text.significant lines.flatten

theorem spelledBy_cons (line : Text) (lines : List Text) :
    spelledBy (line :: lines) = line.significant ++ spelledBy lines :=
  Text.significant_append line lines.flatten

theorem spelledBy_append (lines lines' : List Text) :
    spelledBy (lines ++ lines') = spelledBy lines ++ spelledBy lines' := by
  rw [spelledBy, List.flatten_append, Text.significant_append]
  rfl

theorem spelledBy_singleton (line : Text) : spelledBy [line] = line.significant := by
  rw [spelledBy, List.flatten_singleton]

theorem significant_run (run : List Command) :
    Text.significant (run.map Command.symbol) = run.map Command.symbol := by
  induction run with
  | nil => rfl
  | cons c run ih =>
    have shown : Text.significant [c.symbol] = [c.symbol] := Text.significant_token (.command c)
    rw [List.map_cons, Text.significant_cons, ih, shown, List.singleton_append]

theorem significant_runLine (depth : Nat) (run : List Command) :
    (runLine depth run).significant = run.map Command.symbol := by
  cases run with
  | nil => rfl
  | cons c run =>
    have line : runLine depth (c :: run) = indent depth ++ (c :: run).map Command.symbol := rfl
    rw [line, Text.significant_append, significant_indent, significant_run, List.nil_append]

theorem spelledBy_runLines (depth : Nat) (run : List Command) :
    spelledBy (runLines depth run) = run.map Command.symbol := by
  cases run with
  | nil => rfl
  | cons c run =>
    have lines : runLines depth (c :: run) = [runLine depth (c :: run)] := rfl
    rw [lines, spelledBy_singleton, significant_runLine]

theorem significant_opening (depth : Nat) : (indent depth ++ "[").significant = "[" := by
  rw [Text.significant_append, significant_indent]
  decide

theorem significant_closing (depth : Nat) : (indent depth ++ "]").significant = "]" := by
  rw [Text.significant_append, significant_indent]
  decide

/-- The lines of a body spell it. -/
theorem spelledBy_linesFrom (depth : Nat) (run : List Command) (p : Program) :
    spelledBy (linesFrom depth run p) = run.map Command.symbol ++ p.spelling := by
  induction p generalizing depth run with
  | nil =>
    rw [linesFrom, spelledBy_singleton, significant_runLine, spelling_nil, List.append_nil]
  | leaf c rest ih =>
    rw [linesFrom, ih, List.map_append, List.append_assoc, spelling_leaf]
    rfl
  | loop inner rest ihb ihr =>
    rw [linesFrom, spelledBy_append, spelledBy_runLines, spelledBy_cons, significant_opening,
      spelledBy_append, ihb, spelledBy_cons, significant_closing, ihr, spelling_loop]
    rfl

/-! ### What the lines are -/

/-- Every line of a row of lines passes a test together with the symbols above it. -/
def Along (test : Text → Text → Prop) : Text → List Text → Prop
  | _, [] => True
  | above, line :: lines => test above line ∧ Along test (above ++ line.significant) lines

variable {test : Text → Text → Prop} {above : Text} {lines lines' : List Text}

theorem along_append : Along test above (lines ++ lines') ↔
    Along test above lines ∧ Along test (above ++ spelledBy lines) lines' := by
  induction lines generalizing above with
  | nil => simp [Along, spelledBy, Text.significant_nil]
  | cons line lines ih =>
    rw [List.cons_append, Along, ih, Along, spelledBy_cons, List.append_assoc, and_assoc]

/-- The commands since the last bracket and a loop behind them, as places of their body. -/
theorem foldr_leaf_eq (run : List Command) (rest : Program) :
    run.foldr .leaf rest = (run.foldr .leaf .nil : Program) ++ rest :=
  (Code.foldr_leaf_append run .nil rest).symm

/-- **Every line of a body is what it should be**, wherever the body stands. -/
theorem along_linesFrom {run : List Command}
    (around : Stands p depth before (front ++ run.foldr .leaf rest))
    (first : front.endsWithCommand = false) :
    Along (Lays p) (before ++ front.spelling) (linesFrom depth run rest) := by
  induction rest generalizing depth before front run with
  | nil =>
    refine ⟨?_, trivial⟩
    cases run with
    | nil => exact .blank
    | cons c run => exact .run around rfl (List.cons_ne_nil c run) first rfl
  | leaf c rest ih =>
    refine ih ?_ first
    rwa [List.foldr_append]
  | loop inner rest ihb ihr =>
    have waiting : Along (Lays p) (before ++ front.spelling) (runLines depth run) := by
      cases run with
      | nil => trivial
      | cons c run => exact ⟨.run around rfl (List.cons_ne_nil c run) first rfl, trivial⟩
    rw [foldr_leaf_eq, ← Code.append_assoc] at around
    have place : before ++ front.spelling ++ run.map Command.symbol =
        before ++ (front ++ run.foldr .leaf .nil : Program).spelling := by
      rw [spelling_append, spelling_run, spelling_nil, List.append_nil, List.append_assoc]
    generalize front ++ run.foldr Code.leaf .nil = ahead at around place
    rw [linesFrom, along_append, spelledBy_runLines, place]
    refine ⟨waiting, .opening around rfl, ?_⟩
    rw [significant_opening, along_append, spelledBy_linesFrom]
    refine ⟨?_, .closing around rfl, ?_⟩
    · have inside := @ihb (depth + 1) _ .nil [] (.inside around) rfl
      rwa [spelling_nil, List.append_nil] at inside
    · have behind : Stands p depth before (ahead ++ .loop inner .nil ++ rest) := by
        rwa [Code.append_assoc]
      have later := @ihr depth before _ [] behind (endsWithCommand_loop ahead inner)
      rw [spelling_append, spelling_loop, spelling_nil] at later
      rw [significant_closing, List.append_assoc, List.append_assoc, List.append_assoc]
      exact later

/-! ### The lines of a loop -/

/-- The lines of a loop among those of its body. -/
theorem exists_lines_of_loop (depth : Nat) (run : List Command) (front inner rest : Program) :
    ∃ above, spelledBy above = run.map Command.symbol ++ front.spelling ∧
      linesFrom depth run (front ++ .loop inner rest) =
        above ++ (indent depth ++ "[") :: (linesFrom (depth + 1) [] inner ++
          (indent depth ++ "]") :: linesFrom depth [] rest) := by
  induction front generalizing run with
  | nil => exact ⟨runLines depth run, by rw [spelledBy_runLines]; simp, rfl⟩
  | leaf c front ih =>
    obtain ⟨above, spells, lines⟩ := ih (run ++ [c])
    refine ⟨above, ?_, lines⟩
    rw [spells, List.map_append, List.append_assoc]
    rfl
  | loop inner' front _ ih =>
    obtain ⟨above, spells, lines⟩ := ih []
    refine ⟨runLines depth run ++ (indent depth ++ "[") :: (linesFrom (depth + 1) [] inner' ++
      (indent depth ++ "]") :: above), ?_, ?_⟩
    · rw [spelledBy_append, spelledBy_runLines, spelledBy_cons, significant_opening,
        spelledBy_append, spelledBy_linesFrom, spelledBy_cons, significant_closing, spells,
        spelling_loop]
      rfl
    · rw [Code.loop_append, linesFrom, lines]
      simp only [List.append_assoc, List.cons_append]

/-- **The lines of a body are those of the program in one place**, behind what is in front of it. -/
theorem Stands.exists_lines {body : Program} (stands : Stands p depth before body) :
    ∃ above below, spelledBy above = before ∧
      Lines.split p.layout = above ++ linesFrom depth [] body ++ below := by
  induction stands with
  | top => exact ⟨[], [], rfl, by rw [split_layout, List.append_nil, List.nil_append]⟩
  | @inside depth before front inner rest around ih =>
    obtain ⟨above, below, spells, cut⟩ := ih
    obtain ⟨ahead, spells', lines⟩ := exists_lines_of_loop depth [] front inner rest
    rw [lines] at cut
    refine ⟨above ++ ahead ++ [indent depth ++ "["],
      (indent depth ++ "]") :: linesFrom depth [] rest ++ below, ?_, ?_⟩
    · rw [spelledBy_append, spelledBy_append, spells, spells', spelledBy_singleton,
        significant_opening]
      rfl
    · rw [cut]
      simp only [List.append_assoc, List.cons_append, List.nil_append]

/-- **A layout gives every bracket and every run of commands a line of its own.** Every line of it
is blank, or a bracket of a loop, or a whole run of commands, with two blanks in front for each loop
around; and each loop has its brackets on two lines that are equally far in, with the lines of its
body between them. -/
theorem layout_lines (p : Program) :
    (∀ above line below, Lines.split p.layout = above ++ line :: below →
        Lays p (spelledBy above) line) ∧
      ∀ depth before (front inner rest : Program),
        Stands p depth before (front ++ .loop inner rest) →
        ∃ above between below, spelledBy above = before ++ front.spelling ∧
          spelledBy between = inner.spelling ∧
          Lines.split p.layout = above ++ (indent depth ++ "[") :: (between ++
            (indent depth ++ "]") :: below) := by
  constructor
  · intro above line below cut
    have all : Along (Lays p) [] (linesFrom 0 [] p) := @along_linesFrom p 0 [] .nil p [] .top rfl
    rw [← split_layout, cut] at all
    exact (along_append.1 all).2.1
  · intro depth before front inner rest around
    obtain ⟨above, below, spells, cut⟩ := around.exists_lines
    obtain ⟨ahead, spells', lines⟩ := exists_lines_of_loop depth [] front inner rest
    rw [lines] at cut
    refine ⟨above ++ ahead, linesFrom (depth + 1) [] inner, linesFrom depth [] rest ++ below,
      ?_, ?_, ?_⟩
    · rw [spelledBy_append, spells, spells']
      rfl
    · exact spelledBy_linesFrom (depth + 1) [] inner
    · rw [cut]
      simp only [List.append_assoc, List.cons_append]

/-- A run at the top and one inside a loop, with an empty loop behind it. -/
def nestedLoops : Program := .leaf .input (.loop (.leaf .decrement (.loop .nil .nil)) .nil)

theorem layout_lines_nested :
    Lines.split nestedLoops.layout =
      [",", "[", "  -", "  [", "", "  ]", "", "]", ""].map Text.ofString ∧
    Lays nestedLoops ",[" "  -" ∧ Stands nestedLoops 1 ",[" (.leaf .decrement (.loop .nil .nil)) ∧
      ∃ above between below, spelledBy above = ",[-" ∧ spelledBy between = [] ∧
        Lines.split nestedLoops.layout =
          above ++ Text.ofString "  [" :: (between ++ Text.ofString "  ]" :: below) := by
  obtain ⟨lays, loops⟩ := layout_lines nestedLoops
  have outer : Stands nestedLoops 0 [] (.leaf .input .nil ++ .loop _ .nil) := .top
  have inner : Stands nestedLoops 1 ",[" (.leaf .decrement .nil ++ .loop .nil .nil) := .inside outer
  have lines : Lines.split nestedLoops.layout =
      [",", "[", "  -", "  [", "", "  ]", "", "]", ""].map Text.ofString := by decide
  exact ⟨lines, lays [",", "["] "  -" _ lines, inner, loops _ _ _ _ _ inner⟩

end TapeLang.Program
