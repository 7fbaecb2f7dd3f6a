import TapeLang.Proofs.FlatRuns
import TapeLang.Proofs.Readback
import TapeLang.Proofs.Walking
import TapeLang.Proofs.Weights
import TapeLang.Run

/-! The backends agree.

A way of running a program `Runs` it if it ends as the evaluation of the program does: with its
outcome, or, where a byte is missing, with what the outcome has written and the cell that it could
not be read into. The walk, the run of flat code and the script do (`runs_walker`, `runs_runner`,
`runs_script`), so whatever is seen of an outcome is seen of each of them from some fuel on
(`Runs.settles`). What a caller of a backend sees is the result: it gets one exactly if the
evaluation of the program has an outcome, and then that one (`exists_runBy_iff`). More fuel changes
no result (`runBy_of_le`). So all backends return, or all fail for want of input, or all run
forever, and there is one result at most; what the script gives can be read off its text
(`backends_agree`). -/
namespace TapeLang

/-- What a caller gets of an outcome. -/
def Outcome.result : Outcome → Except Error Machine
  | ended m => .ok m
  | exhausted m => .error (.run (.inputExhausted m.tape.cursor))

/-- A text run by one of the backends, without a limit. -/
def runBy (source : Text) (input : List UInt8) (policy : Scalar) (level : Int) (b : Backend)
    (fuel : Nat) : Option (Except Error Machine) :=
  runSource fuel { policy, backend := .text b.word, level := .int level } source input

theorem find?_word (b : Backend) :
    Backend.all.find? (fun c => Scalar.text c.word = .text b.word) = some b := by
  cases b <;> decide

section
variable {source : Text} {p : Program} {word : Scalar} {policy : EndOfInput} {level : Int}
  {input : List UInt8} (parses : Program.parse source = .ok p)
  (named : EndOfInput.ofScalar? word = some policy)
include parses named

/-! ### What each backend runs -/

theorem runSource_interpret (limit : Option Int) (fuel : Nat) :
    runSource fuel { policy := word, limit, backend := .text Backend.interpret.word,
                     level := .int level } source input =
      ((Walker.start p { unread := input } 0).run policy limit fuel).map
        fun e => finished e.1 e.2.machine := by
  simp only [runSource, parses, runProgram, find?_word, EndOfInput.ofScalar, named, walk]
  cases (Walker.start p { unread := input } 0).run policy limit fuel <;> rfl

theorem runSource_batches {limit : Option Int} {f : Flat}
    (lowered : (Packed.optimize level p).lower? = some f)
    (fits : Runner.misfit? defaultBatchSteps limit { machine := { unread := input } } = none)
    (fuel : Nat) :
    runSource fuel { policy := word, limit, backend := .text Backend.batches.word,
                     level := .int level } source input =
      (Runner.run f policy defaultBatchSteps limit fuel { machine := { unread := input } }).map
        fun e => finished e.1 e.2.machine := by
  have ready : (Packed.ofLevel (.int level) p >>= Packed.lower) = .ok f := by
    simp only [Packed.ofLevel, Scalar.toInteger, bind, Except.bind, Packed.lower, lowered]
  simp only [runSource, parses, runProgram, find?_word, ready, EndOfInput.ofScalar, named, batch,
    fits]
  cases Runner.run f policy defaultBatchSteps limit fuel { machine := { unread := input } } <;> rfl

theorem runBy_interpret (fuel : Nat) :
    runBy source input word level .interpret fuel =
      ((Walker.start p { unread := input } 0).run policy none fuel).map
        fun e => finished e.1 e.2.machine :=
  runSource_interpret parses named none fuel

theorem runBy_batches {f : Flat} (lowered : (Packed.optimize level p).lower? = some f)
    (fuel : Nat) :
    runBy source input word level .batches fuel =
      (Runner.run f policy defaultBatchSteps none fuel { machine := { unread := input } }).map
        fun e => finished e.1 e.2.machine :=
  runSource_batches parses named lowered rfl fuel

theorem runBy_script {s : Script} (made : scriptOf (.int level) word none p = .ok s) (fuel : Nat) :
    runBy source input word level .script fuel =
      (s.run fuel { unread := input }).map fun e => finished e.1 e.2 := by
  have loads := (load_and_eval_of_scriptOf named level none p made).1
  simp only [runBy, runSource, parses, runProgram, find?_word, made, bind, Except.bind, loads]
  rfl

end

/-! ### What each backend comes to -/

/-- How a run ends that comes to an outcome, with a fault or without one. A run that fails leaves
what was written before, but it may have accessed the cell that it could not read a byte into. -/
def Outcome.EndsAs : Outcome → Option RunFault × Machine → Prop
  | ended m, e => e = (none, m)
  | exhausted m, e => e.1 = some (.inputExhausted m.tape.cursor) ∧ e.2.written = m.written

theorem finished_of_endsAs {o : Outcome} {e : Option RunFault × Machine} (h : o.EndsAs e) :
    finished e.1 e.2 = o.result := by
  cases o with
  | ended m =>
    cases h
    rfl
  | exhausted m =>
    obtain ⟨fault, m'⟩ := e
    cases h.1
    rfl

theorem endsAs_of_walker {steps n : Nat} {o : Outcome} {e : Option RunFault × Walker}
    (h : Walker.Reports steps n o e) : o.EndsAs (e.1, e.2.machine) := by
  cases o with
  | ended m =>
    cases h
    rfl
  | exhausted m => exact ⟨h.1, congrArg Machine.written h.2.1⟩

theorem endsAs_of_runner {f : Flat} {steps : Nat} {o : Outcome} {e : Option RunFault × Runner}
    (h : Runner.Reports f steps o e) : o.EndsAs (e.1, e.2.machine) := by
  cases o with
  | ended m =>
    cases h
    rfl
  | exhausted m =>
    refine ⟨h.1, ?_⟩
    rw [h.2]
    exact (Machine.sameStreams_touch m).2

theorem finished_of_walker {steps n : Nat} {o : Outcome} {e : Option RunFault × Walker}
    (h : Walker.Reports steps n o e) : finished e.1 e.2.machine = o.result :=
  finished_of_endsAs (endsAs_of_walker h)

theorem finished_of_runner {f : Flat} {steps : Nat} {o : Outcome} {e : Option RunFault × Runner}
    (h : Runner.Reports f steps o e) : finished e.1 e.2.machine = o.result :=
  finished_of_endsAs (endsAs_of_runner h)

/-- A way of running a program ends as the evaluation of the program does, and it ends the same with
more fuel. -/
structure Runs (p : Program) (policy : EndOfInput) (input : List UInt8)
    (run : Nat → Option (Option RunFault × Machine)) : Prop where
  sound : ∀ {fuel e}, run fuel = some e →
    ∃ rounds o, p.eval (Command.exec policy) rounds { unread := input } = some o ∧ o.EndsAs e
  complete : ∀ {rounds o}, p.eval (Command.exec policy) rounds { unread := input } = some o →
    ∃ fuel e, run fuel = some e ∧ o.EndsAs e
  mono : ∀ {fuel fuel' e}, fuel ≤ fuel' → run fuel = some e → run fuel' = some e

section
variable {p : Program} {policy : EndOfInput} {input : List UInt8}
  {run : Nat → Option (Option RunFault × Machine)} {ρ : Type}
  {view : Option RunFault × Machine → ρ} {result : Outcome → ρ}

/-- What is seen of how a run ends is what is seen of an outcome of the program. -/
theorem Runs.exists_iff (runs : Runs p policy input run)
    (agree : ∀ o e, o.EndsAs e → view e = result o) (r : ρ) :
    (∃ fuel, (run fuel).map view = some r) ↔
      ∃ rounds o, p.eval (Command.exec policy) rounds { unread := input } = some o ∧
        result o = r := by
  simp only [Option.map_eq_some_iff]
  constructor
  · rintro ⟨fuel, e, ends, rfl⟩
    obtain ⟨rounds, o, eval, endsAs⟩ := runs.sound ends
    exact ⟨rounds, o, eval, (agree o e endsAs).symm⟩
  · rintro ⟨rounds, o, eval, rfl⟩
    obtain ⟨fuel, e, ends, endsAs⟩ := runs.complete eval
    exact ⟨fuel, e, ends, agree o e endsAs⟩

/-- What is seen of an outcome is seen from some fuel on, and nothing before. -/
theorem Runs.settles (runs : Runs p policy input run)
    (agree : ∀ o e, o.EndsAs e → view e = result o) {rounds : Nat} {o : Outcome}
    (eval : p.eval (Command.exec policy) rounds { unread := input } = some o) :
    Course.Settles (fun fuel => (run fuel).map view) (result o) := by
  obtain ⟨fuel, seen⟩ := (runs.exists_iff agree (result o)).2 ⟨rounds, o, eval, rfl⟩
  refine Course.settled_of_mono (fun le seen => ?_) seen
  obtain ⟨e, ends, same⟩ := Option.map_eq_some_iff.1 seen
  exact Option.map_eq_some_iff.2 ⟨e, runs.mono le ends, same⟩

theorem Runs.eq_none (runs : Runs p policy input run)
    (endless : ∀ rounds, p.eval (Command.exec policy) rounds { unread := input } = none)
    (fuel : Nat) : run fuel = none := by
  cases ends : run fuel with
  | none => rfl
  | some e =>
    obtain ⟨rounds, o, eval, -⟩ := runs.sound ends
    exact nomatch (endless rounds).symm.trans eval

theorem runs_walker (p : Program) (policy : EndOfInput) (input : List UInt8) :
    Runs p policy input fun fuel =>
      ((Walker.start p { unread := input } 0).run policy none fuel).map
        fun e => (e.1, e.2.machine) where
  sound ends := by
    obtain ⟨e, run, rfl⟩ := Option.map_eq_some_iff.1 ends
    obtain ⟨rounds, _, o, eval, reports⟩ := Walker.eval_of_run run
    exact ⟨rounds, o, eval, endsAs_of_walker reports⟩
  complete eval := by
    obtain ⟨_, fuel, e, run, reports⟩ := Walker.run_of_eval eval 0
    exact ⟨fuel, _, Option.map_eq_some_iff.2 ⟨e, run, rfl⟩, endsAs_of_walker reports⟩
  mono le ends := by
    simp only [Option.map_eq_some_iff, Walker.run_eq] at ends ⊢
    obtain ⟨e, run, same⟩ := ends
    exact ⟨e, Course.run_of_le le run, same⟩

theorem runs_runner {level : Int} {f : Flat} (lowered : (Packed.optimize level p).lower? = some f)
    (fits : (Packed.optimize level p).Stays (Op.exec policy) Machine.Fits { unread := input }) :
    Runs p policy input fun fuel =>
      (Runner.run f policy defaultBatchSteps none fuel { machine := { unread := input } }).map
        fun e => (e.1, e.2.machine) := by
  have holds := Flat.holds_of_lower (Packed.isPacked_optimize level p) lowered
  have hb : 1 ≤ defaultBatchSteps := by decide
  constructor
  case sound =>
    intro fuel e ends
    obtain ⟨e, run, rfl⟩ := Option.map_eq_some_iff.1 ends
    obtain ⟨rounds, _, o, eval, reports⟩ := Runner.eval_of_run holds fits hb run
    obtain ⟨rounds', eval'⟩ := (Packed.eval_optimize_iff level policy p _ o).1 ⟨rounds, eval⟩
    exact ⟨rounds', o, eval', endsAs_of_runner reports⟩
  case complete =>
    intro rounds o eval
    obtain ⟨rounds', eval'⟩ := (Packed.eval_optimize_iff level policy p _ o).2 ⟨rounds, eval⟩
    obtain ⟨_, fuel, e, run, reports⟩ := Runner.run_of_eval holds fits hb eval'
    exact ⟨fuel, _, Option.map_eq_some_iff.2 ⟨e, run, rfl⟩, endsAs_of_runner reports⟩
  case mono =>
    intro fuel fuel' e le ends
    simp only [Option.map_eq_some_iff, Runner.run_eq] at ends ⊢
    obtain ⟨e, run, same⟩ := ends
    exact ⟨e, Course.run_of_le le run, same⟩

/-- What a script is run to is what its outcome comes to. -/
def Outcome.ending : Outcome → Option RunFault × Machine
  | ended m => (none, m)
  | exhausted m => (some (.inputExhausted m.tape.cursor), m)

theorem endsAs_ending (o : Outcome) : o.EndsAs o.ending := by
  cases o with
  | ended m => rfl
  | exhausted m => exact ⟨rfl, rfl⟩

theorem Script.run_eq (s : Script) (fuel : Nat) (m : Machine) :
    s.run fuel m = (s.eval fuel m).map Outcome.ending := by
  unfold run
  cases s.eval fuel m with
  | none => rfl
  | some o => cases o <;> rfl

/-- The text of the script of a program gives back packed code, and running the script is evaluating
that code. -/
theorem exists_code_of_scriptOf {word : Scalar} (named : EndOfInput.ofScalar? word = some policy)
    {level : Int} {sourceName : Option Text} {s : Script}
    (made : scriptOf (.int level) word sourceName p = .ok s) :
    ∃ code, Script.read? s.text = some (code, policy) ∧
      ∀ fuel m, s.run fuel m = (code.eval (Op.exec policy) fuel m).map Outcome.ending := by
  refine ⟨Packed.optimize level p, ?_, fun fuel m => ?_⟩
  · have packed := Packed.isPacked_optimize level p
    have written := ScriptWriter.write_eq (.make (.int level) policy sourceName) packed
    cases (scriptOf_int named level sourceName p).symm.trans made
    exact Script.read?_of_written packed written
  · rw [Script.run_eq, (load_and_eval_of_scriptOf named level sourceName p made).2]

theorem runs_script {word : Scalar} (named : EndOfInput.ofScalar? word = some policy) {level : Int}
    {sourceName : Option Text} {s : Script}
    (made : scriptOf (.int level) word sourceName p = .ok s) :
    Runs p policy input fun fuel => s.run fuel { unread := input } := by
  have eval := (load_and_eval_of_scriptOf named level sourceName p made).2
  simp only [Script.run_eq, eval]
  constructor
  case sound =>
    intro fuel e ends
    obtain ⟨o, eval, rfl⟩ := Option.map_eq_some_iff.1 ends
    obtain ⟨rounds, eval'⟩ := (Packed.eval_optimize_iff level policy p _ o).1 ⟨fuel, eval⟩
    exact ⟨rounds, o, eval', endsAs_ending o⟩
  case complete =>
    intro rounds o eval
    obtain ⟨fuel, eval'⟩ := (Packed.eval_optimize_iff level policy p _ o).2 ⟨rounds, eval⟩
    exact ⟨fuel, _, Option.map_eq_some_iff.2 ⟨o, eval', rfl⟩, endsAs_ending o⟩
  case mono =>
    intro fuel fuel' e le ends
    obtain ⟨o, eval, same⟩ := Option.map_eq_some_iff.1 ends
    exact Option.map_eq_some_iff.2 ⟨o, Code.eval_of_le le eval, same⟩

end

section
variable {source : Text} {p : Program} {word : Scalar} {policy : EndOfInput} {level : Int}
  {input : List UInt8} (parses : Program.parse source = .ok p)
  (named : EndOfInput.ofScalar? word = some policy) (short : fitsWord (2 * p.size : Nat) = true)
  (fits : (Packed.optimize level p).Stays (Op.exec policy) Machine.Fits { unread := input })
include parses named short fits

/-- **A backend gives a result exactly if the program has an outcome**, and then that one. -/
theorem exists_runBy_iff (b : Backend) (r : Except Error Machine) :
    (∃ fuel, runBy source input word level b fuel = some r) ↔
      ∃ rounds o, p.eval (Command.exec policy) rounds { unread := input } = some o ∧
        o.result = r := by
  have seen {run} (runs : Runs p policy input run) :=
    runs.exists_iff (fun o e => finished_of_endsAs) r
  cases b with
  | interpret =>
    simp only [runBy_interpret parses named]
    simpa only [Option.map_map, Function.comp_def] using seen (runs_walker p policy input)
  | batches =>
    obtain ⟨f, lowered⟩ := Packed.lower_optimize level short
    simp only [runBy_batches parses named lowered]
    simpa only [Option.map_map, Function.comp_def] using seen (runs_runner lowered fits)
  | script =>
    obtain ⟨s, made⟩ : ∃ s, scriptOf (.int level) word none p = .ok s :=
      ⟨_, scriptOf_int named level none p⟩
    simp only [runBy_script parses named made]
    exact seen (runs_script named made)

omit short fits in
/-- The script backend comes to what the text of the script says, read back as packed code. -/
theorem exists_code_of_runBy :
    ∃ script code, scriptOf (.int level) word none p = .ok script ∧
      Script.read? script.text = some (code, policy) ∧
      ∀ fuel, runBy source input word level .script fuel =
        (code.eval (Op.exec policy) fuel { unread := input }).map Outcome.result := by
  obtain ⟨script, made⟩ : ∃ script, scriptOf (.int level) word none p = .ok script :=
    ⟨_, scriptOf_int named level none p⟩
  obtain ⟨code, read, run⟩ := exists_code_of_scriptOf named made
  refine ⟨script, code, made, read, fun fuel => ?_⟩
  rw [runBy_script parses named made, run, Option.map_map]
  exact congrArg (Option.map · _) (funext fun o => finished_of_endsAs (endsAs_ending o))

omit fits in
/-- More fuel changes no result. -/
theorem runBy_of_le (b : Backend) {fuel fuel' : Nat} (le : fuel ≤ fuel') {r : Except Error Machine}
    (run : runBy source input word level b fuel = some r) :
    runBy source input word level b fuel' = some r := by
  cases b with
  | interpret =>
    simp only [runBy_interpret parses named, Option.map_eq_some_iff, Walker.run_eq] at run ⊢
    obtain ⟨e, run, rfl⟩ := run
    exact ⟨e, Course.run_of_le le run, rfl⟩
  | batches =>
    obtain ⟨f, lowered⟩ := Packed.lower_optimize level short
    simp only [runBy_batches parses named lowered, Option.map_eq_some_iff, Runner.run_eq] at run ⊢
    obtain ⟨e, run, rfl⟩ := run
    exact ⟨e, Course.run_of_le le run, rfl⟩
  | script =>
    obtain ⟨s, made⟩ : ∃ s, scriptOf (.int level) word none p = .ok s :=
      ⟨_, scriptOf_int named level none p⟩
    simp only [runBy_script parses named made, Option.map_eq_some_iff] at run ⊢
    obtain ⟨e, run, rfl⟩ := run
    exact ⟨e, (runs_script named made).mono le run, rfl⟩

end

/-! ### Agreement -/

/-- Three cells to the left, bytes are copied: `<<<,[.,]`. -/
def Program.copyLeft : Program :=
  .leaf .retreat <| .leaf .retreat <| .leaf .retreat <| .leaf .input <|
    .loop (.leaf .output <| .leaf .input .nil) .nil

theorem parse_copyLeft : Program.parse "<<<,[.,]" = .ok Program.copyLeft := by
  rfl

theorem optimize_copyLeft : Packed.optimize 2 Program.copyLeft = Packed.copyLeft := by
  rw [Packed.optimize_eq]
  rfl

/-- **The backends agree.** For a text that is a program short enough for jumps, and as long as the
cursor and the index of its cell fit into words, either no backend ever gives a result, or there is
one result that every backend gives from some fuel on and none before: the machine that the program
leaves, with its output and its tape, or that the input was exhausted at a cell. What the script
gives is what its text says: the packed code that the text gives back is evaluated to it. -/
theorem backends_agree {source : Text} {p : Program} {word : Scalar} {policy : EndOfInput}
    {level : Int} {input : List UInt8} (parses : Program.parse source = .ok p)
    (named : EndOfInput.ofScalar? word = some policy) (short : fitsWord (2 * p.size : Nat) = true)
    (fits : (Packed.optimize level p).Stays (Op.exec policy) Machine.Fits { unread := input }) :
    (∃ script code, scriptOf (.int level) word none p = .ok script ∧
      Script.read? script.text = some (code, policy) ∧
      ∀ fuel, runBy source input word level .script fuel =
        (code.eval (Op.exec policy) fuel { unread := input }).map Outcome.result) ∧
    ((∀ b fuel, runBy source input word level b fuel = none) ∨
      ∃ result : Except Error Machine,
        ((∃ m, result = .ok m) ∨ ∃ cell, result = .error (.run (.inputExhausted cell))) ∧
        ∀ b, ∃ bound, ∀ fuel, runBy source input word level b fuel =
          if fuel < bound then none else some result) := by
  refine ⟨exists_code_of_runBy parses named, ?_⟩
  by_cases ends : ∃ rounds o, p.eval (Command.exec policy) rounds { unread := input } = some o
  · obtain ⟨rounds, o, eval⟩ := ends
    refine .inr ⟨o.result, ?_, fun b => ?_⟩
    · cases o with
      | ended m => exact .inl ⟨m, rfl⟩
      | exhausted m => exact .inr ⟨m.tape.cursor, rfl⟩
    · obtain ⟨fuel, run⟩ :=
        (exists_runBy_iff parses named short fits b o.result).2 ⟨rounds, o, eval, rfl⟩
      exact Course.settled_of_mono (fun le => runBy_of_le parses named short b le) run
  · refine .inl fun b fuel => ?_
    cases run : runBy source input word level b fuel with
    | none => rfl
    | some r =>
      obtain ⟨rounds, o, eval, -⟩ :=
        (exists_runBy_iff parses named short fits b r).1 ⟨fuel, run⟩
      exact absurd ⟨rounds, o, eval⟩ ends

/-- Every backend fails for want of input at the cell it copies from. -/
theorem backends_agree_copyLeft : Program.parse "<<<,[.,]" = .ok Program.copyLeft ∧
    ∀ b, ∃ bound, ∀ fuel, runBy "<<<,[.,]" [7, 5] (.text "Error") 2 b fuel =
      if fuel < bound then none else some (.error (.run (.inputExhausted (-3)))) := by
  refine ⟨parse_copyLeft, ?_⟩
  have named : EndOfInput.ofScalar? (.text "Error") = some .error := by decide
  have walked : runBy "<<<,[.,]" [7, 5] (.text "Error") 2 .interpret 20 =
      some (.error (.run (.inputExhausted (-3)))) := by
    rw [runBy_interpret parse_copyLeft named]
    rfl
  rcases backends_agree parse_copyLeft named (by decide)
    (optimize_copyLeft ▸ stays_copyLeft [7, 5]) with ⟨-, never | ⟨result, -, settled⟩⟩
  · exact nomatch (never .interpret 20).symm.trans walked
  · obtain ⟨bound, run⟩ := settled .interpret
    rw [run 20] at walked
    split at walked
    · exact nomatch walked
    · cases walked
      exact settled

end TapeLang
