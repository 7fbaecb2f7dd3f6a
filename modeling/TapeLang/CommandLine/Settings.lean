import TapeLang.CommandLine.Word

/-! What a command line asks for.

The words are taken one after the other. A switch takes its value from what is attached to it or
else from the plain word that follows; several switches of one letter may share a word, and none of
them counts before the whole word makes sense. Of repeated switches the last one counts, and of the
switches that choose what is done only one may be given. The first plain word is the input; whatever
else is left over is refused in the end, after a missing input.

Where the mark is attached as a value, it is taken away and the value is empty. An empty output is
none at all; an empty level or policy is accepted here, and fails where it is used. -/
namespace TapeLang.CommandLine

structure Settings where
  /-- What is done with the program, if it is not compiled. -/
  mode : Option Switch := none
  output : Option Text := none
  level : Scalar := .int 2
  policy : Scalar := .text EndOfInput.error.word
  dumpTape : Bool := false
  verbose : Bool := false
  input : Text := []
  deriving DecidableEq

/-- Why a command line is not carried out. -/
inductive Refusal where
  /-- The help is asked for. -/
  | help
  | fault (f : UsageFault)
  deriving DecidableEq

/-- A command line partly taken. -/
structure Taken where
  settings : Settings := {}
  hasInput : Bool := false
  /-- The words left over, last first. -/
  left : List Text := []

namespace Taken

def leave (t : Taken) (text : Text) : Taken := { t with left := text :: t.left }

/-- A plain word: the input, or left over. -/
def plain (t : Taken) (text : Text) : Taken :=
  if t.hasInput then t.leave text
  else { t with hasInput := true, settings := { t.settings with input := text } }

def flag (t : Taken) (s : Switch) : Except Refusal Taken :=
  let settings := t.settings
  match s with
  | .help => .error .help
  | .dumpTape => .ok { t with settings := { settings with dumpTape := true } }
  | .verbose => .ok { t with settings := { settings with verbose := true } }
  | s =>
    match settings.mode with
    | some other =>
      if other = s then .ok t else .error (.fault (.notAllowed s other))
    | none => .ok { t with settings := { settings with mode := some s } }

def valued (t : Taken) (s : Switch) (value : Text) : Except Refusal Taken :=
  let settings := t.settings
  match s with
  | .level =>
    match IntegerLiteral.read value with
    | .error _ => .error (.fault (.notInteger s value))
    | .ok level =>
      if levels.contains level then
        .ok { t with settings := { settings with level := .int level } }
      else .error (.fault (.notLevel level))
  | .policy =>
    match EndOfInput.all.find? (·.word = value) with
    | some policy => .ok { t with settings := { settings with policy := .text policy.word } }
    | none => .error (.fault (.notPolicy value))
  | _ => .ok { t with settings := { settings with output := some value } }

/-- A switch whose value is empty. -/
def emptied (t : Taken) (s : Switch) : Taken :=
  let settings := t.settings
  match s with
  | .level => { t with settings := { settings with level := .emptyList } }
  | .policy => { t with settings := { settings with policy := .emptyList } }
  | _ => { t with settings := { settings with output := none } }

/-- A switch with what is attached to it as its value. -/
def attached (t : Taken) (s : Switch) (value : Text) : Except Refusal Taken :=
  if value = Word.markText then .ok (t.emptied s) else t.valued s value

end Taken

/-! ### Switches that share a word -/

/-- What a word with switches comes to: the switches without a value, and the last one if it takes
a value, with the value if it is attached. -/
structure Cluster where
  flags : List Switch
  last : Option (Switch × Option Text) := none

/-- A switch without a value in front of a cluster. -/
def Cluster.cons (s : Switch) (c : Cluster) : Cluster := { c with flags := s :: c.flags }

/-- A switch of one letter with the text behind it: its value if it takes one, else the letters of
further switches. -/
def shortCluster (s : Switch) : Text → Except UsageFault Cluster
  | [] => if s.takesValue then .ok ⟨[], some (s, none)⟩ else .ok ⟨[s], none⟩
  | c :: text =>
    if s.takesValue then .ok ⟨[], some (s, some (c :: text))⟩
    else
      match Switch.ofSpelling? [.char '-', c] with
      | some next => (shortCluster next text).map (.cons s)
      | none => .error (.valueIgnored s (c :: text))

/-- What a word with a switch comes to. -/
def clusterOf (s : Switch) (spelling : Text) : Option Text → Except UsageFault Cluster
  | none => shortCluster s []
  | some value =>
    if s.takesValue then .ok ⟨[], some (s, some value)⟩
    else if spelling.length = 2 && !value.isEmpty then shortCluster s value
    else .error (.valueIgnored s value)

/-! ### Taking all words -/

/-- Some switches without values, one after the other. -/
def Taken.flags (t : Taken) : List Switch → Except Refusal Taken
  | [] => .ok t
  | s :: rest => do
    let t ← t.flag s
    t.flags rest

/-- The words from one place on. -/
def Taken.takeAll (t : Taken) : List Word → Except Refusal Taken
  | [] => .ok t
  | .plain text :: .mark :: rest =>
    if t.hasInput then (t.plain text |>.leave Word.markText).takeAll rest
    else (t.plain text).takeAll rest
  | .plain text :: rest => (t.plain text).takeAll rest
  | .mark :: .plain text :: rest =>
    if t.hasInput then ((t.leave Word.markText).leave text).takeAll rest
    else (t.plain text).takeAll rest
  | .mark :: rest => (t.leave Word.markText).takeAll rest
  | .unknown text :: rest => (t.leave text).takeAll rest
  | .switch s spelling attached :: rest =>
    match clusterOf s spelling attached with
    | .error f => .error (.fault f)
    | .ok ⟨flags, none⟩ => do (← t.flags flags).takeAll rest
    | .ok ⟨flags, some (last, some value)⟩ => do
      (← (← t.flags flags).attached last value).takeAll rest
    | .ok ⟨flags, some (last, none)⟩ =>
      match rest with
      | .plain value :: rest => do (← (← t.flags flags).valued last value).takeAll rest
      | _ => .error (.fault (.noValue last))

def Settings.ofWords (texts : List Text) : Except Refusal Settings := do
  let words ← (Word.sortAll texts).mapError .fault
  let t ← Taken.takeAll {} words
  if !t.hasInput then throw (.fault .noInput)
  else if !t.left.isEmpty then throw (.fault (.unrecognized t.left.reverse))
  else return t.settings

end TapeLang.CommandLine
