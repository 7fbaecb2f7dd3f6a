import TapeLang.CommandLine.Session
import TapeLang.Proofs.Backends

/-! The front ends agree.

A file with a program can be run step by step, run as flat code, or compiled to a script that is
called. The two ways of running are backends behind the command line, and the script has a command
of its own (`Script.call`); each of them turns how a run ends into an exit code, what was written
out, and lines of errors. They turn it into the same: of a run that `EndsAs` an outcome, the exit of
the outcome is left (`exit_of_endsAs`), a report without notices and without a dump shows nothing
else (`exit_afterRun`), and all ways of running end as the evaluation does (`Runs`). A file that is
no program comes to one report everywhere (`call_of_fault`). So all front ends leave the same, or
none of them comes to an end (`front_ends_agree`). -/
namespace TapeLang

/-! ### Exits -/

/-- The exit of an outcome: code zero and no errors, or code one and a line that says which cell
could not be read into. What was written stays written. -/
def Outcome.exit : Outcome → Exit
  | ended m => ⟨0, m.written, []⟩
  | exhausted m =>
    ⟨1, m.written,
      "RuntimeError: input exhausted at cell " ++ Numeral.integer m.tape.cursor ++ "\n"⟩

/-- The exit of a text that is no program: code one, nothing written, and the complaint. -/
def BracketFault.exit (source : Text) (f : BracketFault) : Exit :=
  ⟨1, #[], (f.complaint source).message ++ "\n"⟩

theorem exit_of_endsAs {o : Outcome} {e : Option RunFault × Machine} (h : o.EndsAs e) :
    Exit.ofRun e.1 e.2 = .ok o.exit := by
  cases o with
  | ended m =>
    cases h
    rfl
  | exhausted m =>
    rw [h.1]
    exact congrArg (fun written => Except.ok (Exit.mk 1 written _)) h.2

namespace CommandLine

/-- The text of a line, given what to show for the time and for how long a run took. -/
def Line.text (time duration : Text) : Line → Text
  | plain text => text
  | stamped text => time ++ " " ++ text
  | took steps => "Execution took " ++ duration ++ " ms (" ++ Numeral.natural steps ++ " steps)"

theorem Line.display_eq (time duration : Text) (line : Line) :
    line.display time duration = Quoted.display (line.text time duration) := by
  cases line <;> rfl

/-- The exit of a report: what it says is the errors, line by line. -/
def Report.exit (time duration : Text) (r : Report) : Except Error Exit :=
  r.ending.map fun code =>
    ⟨code, r.output.toArray, Lines.close (r.said.map (Line.text time duration))⟩

/-! ### Reports -/

/-- Words ask for something to be done with a file, without notices and without a dump. -/
def Asks (words : List Text) (mode : Option Switch) (level : Scalar) (policy : EndOfInput)
    (name : Text) : Prop :=
  ∃ output, Settings.ofWords words =
    .ok { mode, output, level, policy := .text policy.word, input := name }

section
variable {texts : List Text} {words : List Word}

theorem sortAll_cons {text : Text} {word : Word} (other : text ≠ Word.markText)
    (sorted : Word.sort text = .ok word) (later : Word.sortAll texts = .ok words) :
    Word.sortAll (text :: texts) = .ok (word :: words) := by
  rw [Word.sortAll, if_neg other, sorted, later]
  rfl

theorem ofWords_of_taken {settings : Settings} (sorted : Word.sortAll texts = .ok words)
    (taken : Taken.takeAll {} words = .ok { settings, hasInput := true }) :
    Settings.ofWords texts = .ok settings := by
  rw [Settings.ofWords, sorted]
  show Except.bind (Taken.takeAll {} words) _ = _
  rw [taken]
  rfl

end

/-- The command lines that are meant for it ask for a run and for a script, whatever the policy and
the level, of a file that is named by a plain word. -/
theorem asks_of_plain {name : Text} (plain : Word.sort name = .ok (.plain name))
    (other : name ≠ Word.markText) (policy : EndOfInput) {n : Int} (mem : n ∈ levels) :
    Asks ["-r", "--eof", policy.word, name] (some .run) (.int 2) policy name ∧
      Asks ["--jit", "-O", Numeral.integer n, "--eof", policy.word, name] (some .batches) (.int n)
        policy name ∧
      Asks ["-O", Numeral.integer n, "--eof", policy.word, name] none (.int n) policy name := by
  have offered : n = 0 ∨ n = 1 ∨ n = 2 := by simpa [levels] using mem
  have file : Word.sortAll [name] = .ok [.plain name] := sortAll_cons other plain rfl
  have withPolicy : Word.sortAll ["--eof", policy.word, name] =
      .ok [.switch .policy "--eof" none, .plain policy.word, .plain name] := by
    cases policy <;> exact sortAll_cons (by decide) rfl (sortAll_cons (by decide) rfl file)
  have withLevel : Word.sortAll ["-O", Numeral.integer n, "--eof", policy.word, name] =
      .ok [.switch .level "-O" none, .plain (Numeral.integer n), .switch .policy "--eof" none,
        .plain policy.word, .plain name] := by
    rcases offered with rfl | rfl | rfl <;>
      exact sortAll_cons (by decide) rfl (sortAll_cons (by decide) rfl withPolicy)
  refine ⟨⟨none, ofWords_of_taken (sortAll_cons (by decide) rfl withPolicy) ?_⟩,
    ⟨none, ofWords_of_taken (sortAll_cons (by decide) rfl withLevel) ?_⟩,
    ⟨none, ofWords_of_taken withLevel ?_⟩⟩
  · cases policy <;> rfl
  · rcases offered with rfl | rfl | rfl <;> cases policy <;> rfl
  · rcases offered with rfl | rfl | rfl <;> cases policy <;> rfl

/-- A report on a run without notices and without a dump leaves what the run leaves. -/
theorem exit_afterRun {s : Settings} (quiet : s.verbose = false) (plain : s.dumpTape = false)
    (folder : Folder) (time duration : Text) (r : Ran) :
    ((s.afterRun r).settle folder).exit time duration = Exit.ofRun r.fault? r.machine := by
  have silent : s.shown r.notices = [] := by rw [Settings.shown, quiet]; rfl
  unfold Settings.afterRun
  rw [silent, plain]
  cases r.fault? with
  | none => rfl
  | some f => cases f <;> rfl

section
variable {folder : Folder} {name : Text} {content : List UInt8} {words : List Text}
  {mode : Option Switch} {level : Scalar} {policy : EndOfInput}
  (stored : folder.read (Path.ofText name) = .ok content)
include stored

/-- A file that is no program comes to the complaint, whatever is to be done with it. -/
theorem call_of_fault {f : BracketFault} (asks : Asks words mode level policy name)
    (malformed : Program.read (textOfBytes content) = .error f) (time duration : Text) (fuel : Nat)
    (input : List UInt8) :
    (call fuel folder words input).map (Report.exit time duration) =
      some (.ok (f.exit (textOfBytes content))) := by
  obtain ⟨output, asked⟩ := asks
  simp only [call, asked, Settings.perform, EndOfInput.ofScalar, EndOfInput.ofScalar?_word, stored,
    malformed]
  rfl

variable {p : Program} (reads : Program.read (textOfBytes content) = .ok p)
include reads

/-- With a program, what is asked for is carried out. -/
theorem call_of_program (asks : Asks words mode level policy name) :
    ∃ output, ∀ fuel input, call fuel folder words input =
      (({ mode, output, level, policy := .text policy.word, input := name } : Settings).carryOut
        fuel policy p input).map fun r => r.settle folder := by
  obtain ⟨output, asked⟩ := asks
  refine ⟨output, fun fuel input => ?_⟩
  simp only [call, asked, Settings.perform, EndOfInput.ofScalar, EndOfInput.ofScalar?_word, stored,
    reads]

theorem call_walk (asks : Asks words (some .run) level policy name) (time duration : Text)
    (fuel : Nat) (input : List UInt8) :
    (call fuel folder words input).map (Report.exit time duration) =
      (((Walker.start p { unread := input } 0).run policy none fuel).map
        fun e => (e.1, e.2.machine)).map fun e => Exit.ofRun e.1 e.2 := by
  obtain ⟨output, carried⟩ := call_of_program stored reads asks
  simp only [carried, Settings.carryOut, Settings.walk, TapeLang.walk, Option.map_map]
  cases (Walker.start p { unread := input } 0).run policy none fuel with
  | none => rfl
  | some e => exact congrArg some (exit_afterRun rfl rfl folder time duration _)

theorem call_batch {n : Int} (asks : Asks words (some .batches) (.int n) policy name) {f : Flat}
    (lowered : (Packed.optimize n p).lower? = some f) (time duration : Text) (fuel : Nat)
    (input : List UInt8) :
    (call fuel folder words input).map (Report.exit time duration) =
      ((Runner.run f policy defaultBatchSteps none fuel { machine := { unread := input } }).map
        fun e => (e.1, e.2.machine)).map fun e => Exit.ofRun e.1 e.2 := by
  obtain ⟨output, carried⟩ := call_of_program stored reads asks
  have ready : (Packed.ofLevel (.int n) p >>= Packed.lower) = .ok f := by
    simp only [Packed.ofLevel, Scalar.toInteger, bind, Except.bind, Packed.lower, lowered]
  have fits : Runner.misfit? defaultBatchSteps none { machine := { unread := input } } = none := rfl
  simp only [carried, Settings.carryOut, Settings.batch, ready, TapeLang.batch, fits,
    Option.map_map]
  cases Runner.run f policy defaultBatchSteps none fuel { machine := { unread := input } } with
  | none => rfl
  | some e => exact congrArg some (exit_afterRun rfl rfl folder time duration _)

/-- A program is compiled to a script, and its text goes to a file if the folder takes one. -/
theorem call_compile {m : Int} (asks : Asks words none (.int m) policy name) {script : Script}
    (made : scriptOf (.int m) (.text policy.word) (some (Path.ofText name).name) p = .ok script) :
    ∃ path, ∀ fuel input, call fuel folder words input =
      some
        (({ ending := .ok 0, file := some ⟨path, script.text, true⟩ } : Report).settle folder) := by
  obtain ⟨output, carried⟩ := call_of_program stored reads asks
  refine ⟨({ output } : Settings).target defaultScript, fun fuel input => ?_⟩
  simp only [carried, Settings.carryOut, Settings.compile, made]
  rfl

end

/-! ### Agreement -/

/-- **The front ends agree.** Whatever words ask for a run of a file step by step, as flat code and
at any level, and for a script of any level, without notices and without a dump: if the file is no
program, all leave the complaint about it. Otherwise there is a script that loads, and it is written
to a file unless the folder takes none; and as long as the program is short enough for jumps and the
cursor and the index of its cell fit into words, either nothing ever comes of running the file, in
either way, and of calling the script, or the program has an outcome, and its exit is what all three
leave from some fuel on, and nothing else before. What the script leaves when it is called is what
its text says: the exit of the packed code that the text gives back. -/
theorem front_ends_agree {folder : Folder} {name : Text} {content : List UInt8}
    (stored : folder.read (Path.ofText name) = .ok content) {policy : EndOfInput} {level : Scalar}
    {n m : Int} {runWords batchWords compileWords : List Text}
    (runs : Asks runWords (some .run) level policy name)
    (batches : Asks batchWords (some .batches) (.int n) policy name)
    (compiles : Asks compileWords none (.int m) policy name) (input : List UInt8)
    (time duration : Text) :
    (∀ f, Program.read (textOfBytes content) = .error f →
      ∀ words ∈ [runWords, batchWords, compileWords], ∀ fuel,
        (call fuel folder words input).map (Report.exit time duration) =
          some (.ok (f.exit (textOfBytes content)))) ∧
    ∀ p, Program.read (textOfBytes content) = .ok p → fitsWord (2 * p.size : Nat) = true →
      (Packed.optimize n p).Stays (Op.exec policy) Machine.Fits { unread := input } →
      ∃ (script : Script) (path : Path) (code : Packed), script.load = .ok script ∧
        Script.read? script.text = some (code, policy) ∧
        (∀ fuel unread, script.call fuel unread =
          (code.eval (Op.exec policy) fuel { unread }).map fun o => .ok o.exit) ∧
        (∀ fuel unread, call fuel folder compileWords unread =
          some (({ ending := .ok 0, file := some ⟨path, script.text, true⟩ } : Report).settle
            folder)) ∧
        ((∀ fuel, call fuel folder runWords input = none ∧
            call fuel folder batchWords input = none ∧ script.call fuel input = none) ∨
          ∃ rounds o, p.eval (Command.exec policy) rounds { unread := input } = some o ∧
            Course.Settles (fun fuel =>
              (call fuel folder runWords input).map (Report.exit time duration)) (.ok o.exit) ∧
            Course.Settles (fun fuel =>
              (call fuel folder batchWords input).map (Report.exit time duration)) (.ok o.exit) ∧
            Course.Settles (fun fuel => script.call fuel input) (.ok o.exit)) := by
  constructor
  · intro f malformed words mem fuel
    simp only [List.mem_cons, List.not_mem_nil, or_false] at mem
    rcases mem with rfl | rfl | rfl
    · exact call_of_fault stored runs malformed time duration fuel input
    · exact call_of_fault stored batches malformed time duration fuel input
    · exact call_of_fault stored compiles malformed time duration fuel input
  · intro p reads short fits
    have named := EndOfInput.ofScalar?_word policy
    obtain ⟨f, lowered⟩ := Packed.lower_optimize n short
    obtain ⟨script, made⟩ : ∃ script, scriptOf (.int m) (.text policy.word)
        (some (Path.ofText name).name) p = .ok script := ⟨_, scriptOf_int named m _ p⟩
    obtain ⟨path, written⟩ := call_compile stored reads compiles made
    obtain ⟨code, read, run⟩ := exists_code_of_scriptOf named made
    have called (fuel : Nat) (unread : List UInt8) : script.call fuel unread =
        (code.eval (Op.exec policy) fuel { unread }).map fun o => .ok o.exit := by
      rw [Script.call, run, Option.map_map]
      exact congrArg (Option.map · _) (funext fun o => exit_of_endsAs (endsAs_ending o))
    refine ⟨script, path, code, (load_and_eval_of_scriptOf named m _ p made).1, read, called,
      written, ?_⟩
    have left : ∀ (o : Outcome) e, o.EndsAs e → Exit.ofRun e.1 e.2 = .ok o.exit :=
      fun o e => exit_of_endsAs
    have walked := call_walk stored reads runs time duration
    have batched := call_batch stored reads batches lowered time duration
    have walking := runs_walker p policy input
    have batching := runs_runner lowered fits
    have calling : Runs p policy input fun fuel => script.run fuel { unread := input } :=
      runs_script named made
    by_cases ends : ∃ rounds o, p.eval (Command.exec policy) rounds { unread := input } = some o
    · obtain ⟨rounds, o, eval⟩ := ends
      refine .inr ⟨rounds, o, eval, ?_, ?_, calling.settles left eval⟩
      · simpa only [walked] using walking.settles left eval
      · simpa only [batched] using batching.settles left eval
    · have endless (rounds : Nat) :
          p.eval (Command.exec policy) rounds { unread := input } = none :=
        Option.eq_none_iff_forall_ne_some.2 fun o eval => ends ⟨rounds, o, eval⟩
      refine .inl fun fuel => ⟨?_, ?_, Option.map_eq_none_iff.2 (calling.eq_none endless fuel)⟩
      · have never := walking.eq_none endless fuel
        exact Option.map_eq_none_iff.1
          ((walked fuel input).trans (Option.map_eq_none_iff.2 never))
      · have never := batching.eq_none endless fuel
        exact Option.map_eq_none_iff.1
          ((batched fuel input).trans (Option.map_eq_none_iff.2 never))

/-- A folder with a single file, that copies bytes: `<<<,[.,]`. -/
def copyFolder : Folder := ⟨[([[99]], .file [60, 60, 60, 44, 91, 46, 44, 93])]⟩

/-- Every front end copies two bytes and fails at the third one. -/
theorem front_ends_agree_copyLeft :
    copyFolder.read (Path.ofText "c") = .ok [60, 60, 60, 44, 91, 46, 44, 93] ∧
    Asks ["-r", "--eof", "error", "c"] (some .run) (.int 2) .error "c" ∧
    Asks ["--jit", "-O", "2", "--eof", "error", "c"] (some .batches) (.int 2) .error "c" ∧
    Asks ["-O", "0", "--eof", "error", "c"] none (.int 0) .error "c" ∧
    ∃ (script : Script) (exit : Exit), script.load = .ok script ∧
      exit = ⟨1, #[7, 5], "RuntimeError: input exhausted at cell -3\n"⟩ ∧
      Course.Settles (fun fuel => (call fuel copyFolder ["-r", "--eof", "error", "c"] [7, 5]).map
        (Report.exit [] [])) (.ok exit) ∧
      Course.Settles (fun fuel =>
        (call fuel copyFolder ["--jit", "-O", "2", "--eof", "error", "c"] [7, 5]).map
          (Report.exit [] [])) (.ok exit) ∧
      Course.Settles (fun fuel => script.call fuel [7, 5]) (.ok exit) := by
  have stored : copyFolder.read (Path.ofText "c") = .ok [60, 60, 60, 44, 91, 46, 44, 93] := by cbv
  have plain : Word.sort "c" = .ok (.plain "c") := rfl
  have asks {n : Int} := @asks_of_plain "c" plain (by decide) .error n
  have runs : Asks ["-r", "--eof", "error", "c"] (some .run) (.int 2) .error "c" :=
    (asks (show 2 ∈ levels by decide)).1
  have batches : Asks ["--jit", "-O", "2", "--eof", "error", "c"] (some .batches) (.int 2) .error
      "c" := (asks (show 2 ∈ levels by decide)).2.1
  have compiles : Asks ["-O", "0", "--eof", "error", "c"] none (.int 0) .error "c" :=
    (asks (show 0 ∈ levels by decide)).2.2
  refine ⟨stored, runs, batches, compiles, ?_⟩
  have reads : Program.read (textOfBytes [60, 60, 60, 44, 91, 46, 44, 93]) =
      .ok Program.copyLeft := rfl
  have left : (call 20 copyFolder ["-r", "--eof", "error", "c"] [7, 5]).map (Report.exit [] []) =
      some (.ok ⟨1, #[7, 5], "RuntimeError: input exhausted at cell -3\n"⟩) := by
    rw [call_walk stored reads runs]
    rfl
  obtain ⟨script, path, code, loads, -, -, -, never | ⟨rounds, o, -, walked, batched, called⟩⟩ :=
    (front_ends_agree stored runs batches compiles [7, 5] [] []).2 Program.copyLeft reads
      (by decide) (optimize_copyLeft ▸ stays_copyLeft [7, 5])
  · rw [(never 20).1] at left
    cases left
  · refine ⟨script, o.exit, loads, ?_, walked, batched, called⟩
    obtain ⟨bound, settled⟩ := walked
    have same := (settled 20).symm.trans left
    split at same
    · cases same
    · exact Except.ok.inj (Option.some.inj same)

end CommandLine

end TapeLang
