import TapeLang.CommandLine.Switch
import TapeLang.Text.IntegerLiteral
import TapeLang.Text.Quoted

/-! The words of a command line.

Before any word is acted on, each is sorted: a switch, alone or with a value attached, a plain word,
or the mark after which all words are plain. A long switch may be cut short as long as one switch
only is meant. A word that looks like a switch and is none is kept as such; one that looks like a
negative number, or holds a blank, is plain. -/
namespace TapeLang.CommandLine

/-- What is wrong with a command line. -/
inductive UsageFault where
  | ambiguous (given : Text) (spellings : List Text)
  | noValue (s : Switch)
  /-- A value is attached to a switch that takes none. -/
  | valueIgnored (s : Switch) (value : Text)
  | notAllowed (s : Switch) (other : Switch)
  | notInteger (s : Switch) (value : Text)
  | notLevel (value : Int)
  | notPolicy (value : Text)
  | noInput
  | unrecognized (words : List Text)
  deriving DecidableEq

/-- A word of a command line. -/
inductive Word where
  /-- A switch with the text attached to it: after an equals sign, or right behind its letter. -/
  | switch (s : Switch) (spelling : Text) (attached : Option Text)
  /-- A word that looks like a switch and is none. -/
  | unknown (text : Text)
  | plain (text : Text)
  /-- The mark after which all words are plain. -/
  | mark
  deriving DecidableEq

namespace Word

/-- The mark after which all words are plain, as it is written. -/
def markText : Text := "--"

/-- A word in front of its first equals sign, and what follows the sign if there is one. -/
def splitAtSign : Text → Text × Option Text
  | [] => ([], none)
  | c :: text =>
    if c = '=' then ([], some text)
    else
      let (front, value) := splitAtSign text
      (c :: front, value)

/-- Whether all code points are decimal digits. -/
def allDigits (text : Text) : Bool := text.all fun c => (DecimalDigit.value? c).isSome

/-- Whether a word looks like a negative number: digits after a minus sign, with at most one point
that has digits behind it. -/
def looksNegative : Text → Bool
  | .char '-' :: text =>
    let text := if text.getLast? = some '\n' then text.dropLast else text
    let whole := text.takeWhile fun c => (DecimalDigit.value? c).isSome
    match text.dropWhile fun c => (DecimalDigit.value? c).isSome with
    | [] => !whole.isEmpty
    | .char '.' :: fraction => !fraction.isEmpty && allDigits fraction
    | _ => false
  | _ => false

/-- The readings of a word that spells no switch in full. -/
def readings (text : Text) : List (Switch × Text × Option Text) :=
  match text with
  | .char '-' :: .char '-' :: _ =>
    let (front, attached) := splitAtSign text
    Switch.spelled.filterMap fun (spelling, s) =>
      if front.isPrefixOf spelling then some (s, spelling, attached) else none
  | .char '-' :: c :: attached =>
    Switch.spelled.filterMap fun (spelling, s) =>
      if spelling = [.char '-', c] then some (s, spelling, some attached) else none
  | _ => []

/-- A word that starts with a minus sign and spells no switch in full. -/
def sortDashed (text : Text) : Except UsageFault Word :=
  let (front, value) := splitAtSign text
  match value, Switch.ofSpelling? front with
  | some value, some s => .ok (switch s front (some value))
  | _, _ =>
    match readings text with
    | [(s, spelling, attached)] => .ok (switch s spelling attached)
    | [] =>
      if looksNegative text || text.contains ' ' then .ok (plain text) else .ok (unknown text)
    | several => .error (.ambiguous text (several.map (·.2.1)))

/-- A word that stands before the mark. -/
def sort (text : Text) : Except UsageFault Word :=
  match text with
  | .char '-' :: _ :: _ =>
    match Switch.ofSpelling? text with
    | some s => .ok (switch s text none)
    | none => sortDashed text
  | _ => .ok (plain text)

/-- The words of a command line, sorted. -/
def sortAll : List Text → Except UsageFault (List Word)
  | [] => .ok []
  | text :: texts =>
    if text = markText then .ok (mark :: texts.map plain)
    else do
      let word ← sort text
      let words ← sortAll texts
      return word :: words

end Word

def UsageFault.message : UsageFault → Text
  | ambiguous given spellings =>
    "ambiguous option: " ++ given ++ " could match " ++
      Switch.between ", " spellings
  | noValue s => "argument " ++ s.label ++ ": expected one argument"
  | valueIgnored s value =>
    "argument " ++ s.label ++ ": ignored explicit argument " ++ Quoted.quote value
  | notAllowed s other =>
    "argument " ++ s.label ++ ": not allowed with argument " ++ other.label
  | notInteger s value =>
    "argument " ++ s.label ++ ": invalid int value: " ++ Quoted.quote value
  | notLevel value =>
    "argument " ++ Switch.level.label ++ ": invalid choice: " ++
      Numeral.integer value ++ " (choose from " ++
      Switch.between ", " (levels.map Numeral.integer) ++ ")"
  | notPolicy value =>
    "argument " ++ Switch.policy.label ++ ": invalid choice: " ++
      Quoted.quote value ++ " (choose from " ++
      Switch.between ", " (EndOfInput.all.map fun p => Quoted.quote p.word) ++ ")"
  | noInput => "the following arguments are required: input_filename"
  | unrecognized words => "unrecognized arguments: " ++ Switch.between " " words

end TapeLang.CommandLine
