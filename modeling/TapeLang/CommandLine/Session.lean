import TapeLang.CommandLine.Settings
import TapeLang.Compile
import TapeLang.Flat.Listing
import TapeLang.Folder

/-! What the program does with a file.

A session takes the settings, the content of the input file and the bytes that can be read, and
gives everything the program leaves: an exit code, what it has written out, what it has said, and a
file to be written. A program is either run, in one of two ways, or turned into a file, a listing
or a script. -/
namespace TapeLang.CommandLine

/-- A line of what the program says. Times are left to whoever shows it. -/
inductive Line where
  | plain (text : Text)
  /-- A notice with the time in front. -/
  | stamped (text : Text)
  /-- How long a run took. -/
  | took (steps : Nat)

/-- A line as a string, given what to show for the time and for how long a run took. -/
def Line.display (time duration : Text) : Line → String
  | plain text => Quoted.display text
  | stamped text => Quoted.display (time ++ " " ++ text)
  | took steps =>
    Quoted.display ("Execution took " ++ duration ++ " ms (" ++ Numeral.natural steps ++ " steps)")

/-- A file to be written. -/
structure FileWrite where
  path : Path
  content : Text
  executable : Bool

/-- What a session leaves. -/
structure Report where
  /-- The exit code, or an error that nothing takes care of. -/
  ending : Except Error Nat
  output : List UInt8 := []
  said : List Line := []
  file : Option FileWrite := none

def defaultScript : Text := "a.py"

def defaultListing : Text := "out.ir"

/-- Where the file goes. An empty path counts as none. -/
def Settings.target (s : Settings) (default : Text) : Path :=
  match s.output with
  | none | some [] => .ofText default
  | some path => .ofText path

/-- The notices, if they are to be shown. -/
def Settings.shown (s : Settings) (notices : List Notice) : List Line :=
  if s.verbose then notices.map fun n => .stamped n.line else []

/-- What a run leaves. A fault of which nothing is said is not taken care of. -/
def Settings.afterRun (s : Settings) (r : Ran) : Report :=
  let said := s.shown r.notices
  match r.fault? with
  | some f =>
    match f.message? with
    | some message => ⟨.ok 1, r.machine.written.toList, said ++ [.plain message], none⟩
    | none => ⟨.error (.run f), r.machine.written.toList, said, none⟩
  | none =>
    let dump :=
      if s.dumpTape then
        [.took r.steps, .plain ((r.machine.tape.dump? Tape.defaultWidth).getD [])]
      else []
    ⟨.ok 0, r.machine.written.toList, said ++ dump, none⟩

def Report.failed (e : Error) : Report := { ending := .error e }

/-- The program is run step by step. -/
def Settings.walk (s : Settings) (fuel : Nat) (policy : EndOfInput) (p : Program)
    (input : List UInt8) : Option Report :=
  (TapeLang.walk fuel policy none p { unread := input } 0).map s.afterRun

/-- The program is run as flat code. -/
def Settings.batch (s : Settings) (fuel : Nat) (policy : EndOfInput) (p : Program)
    (input : List UInt8) : Option Report :=
  match Packed.ofLevel s.level p >>= Packed.lower with
  | .error e => some (.failed e)
  | .ok f =>
    (TapeLang.batch fuel policy defaultBatchSteps none f
      { machine := { unread := input } }).map s.afterRun

/-- The program is listed as flat code. -/
def Settings.list (s : Settings) (p : Program) : Report :=
  match Packed.ofLevel s.level p >>= Packed.lower with
  | .error e => .failed e
  | .ok f =>
    match f.listing with
    | .error code => .failed (.unknownOpcode code.toInt)
    | .ok content =>
      { ending := .ok 0, file := some ⟨s.target defaultListing, content, false⟩ }

/-- The program is compiled to a script. -/
def Settings.compile (s : Settings) (p : Program) : Report :=
  let sourceName := some (Path.ofText s.input).name
  match scriptOf s.level s.policy sourceName p with
  | .error e => .failed e
  | .ok script =>
    { ending := .ok 0
      said := s.shown [script.notice]
      file := some ⟨s.target defaultScript, script.text, true⟩ }

/-- What is done with a program. -/
def Settings.carryOut (s : Settings) (fuel : Nat) (policy : EndOfInput) (p : Program)
    (input : List UInt8) : Option Report :=
  match s.mode with
  | some .run => s.walk fuel policy p input
  | some .batches => s.batch fuel policy p input
  | some _ => some (s.list p)
  | none => some (s.compile p)

/-- What is done with the content of the input file. The policy comes first. -/
def Settings.perform (s : Settings) (fuel : Nat) (content : Except FileFault (List UInt8))
    (input : List UInt8) : Option Report :=
  match EndOfInput.ofScalar s.policy, content with
  | .error e, _ => some (.failed e)
  | .ok _, .error (.missing _) =>
    some { ending := .ok 1, said := [.plain ("Couldn't find file " ++ s.input)] }
  | .ok _, .error f => some (.failed (.file f))
  | .ok policy, .ok content =>
    let source := textOfBytes content
    match Program.read source with
    | .error f => some { ending := .ok 1, said := [.plain (f.complaint source).message] }
    | .ok p => s.carryOut fuel policy p input

/-- What is left of a command line that is not carried out. -/
def Refusal.report : Refusal → Report
  | help => { ending := .ok 0, output := helpText.toUTF8.toList }
  | fault f =>
    let error := "bftape: error: " ++ f.message
    { ending := .ok 2, said := [.plain (usage ++ error)] }

/-- The report with its file written, where the folder allows it. -/
def Report.settle (r : Report) (folder : Folder) : Report :=
  match r.file.bind fun file => folder.writeFault? file.path with
  | some fault => { r with ending := .error (.file fault), file := none }
  | none => r

/-- What the program leaves when it is called with some words in a folder. -/
def call (fuel : Nat) (folder : Folder) (words : List Text) (input : List UInt8) :
    Option Report :=
  match Settings.ofWords words with
  | .error refusal => some refusal.report
  | .ok s =>
    (s.perform fuel (folder.read (Path.ofText s.input)) input).map fun r => r.settle folder

end TapeLang.CommandLine
