import TapeLang.Program.Reading
import TapeLang.RunFault
import TapeLang.Scalar
import TapeLang.EndOfInput
import TapeLang.Script.Loading
import TapeLang.Source.Complaint

/-! Everything that can go wrong, and how it is said. -/
namespace TapeLang

/-- Why a file cannot be read or written. -/
inductive FileFault where
  | missing (path : Text)
  /-- A directory is where a file is wanted. -/
  | directory (path : Text)
  /-- A file is where a directory is wanted. -/
  | notDirectory (path : Text)
  /-- The path or one of its parts is too long. -/
  | nameTooLong (path : Text)
  /-- The path holds a null character. -/
  | nullCharacter
  /-- The path holds a surrogate that cannot be written. -/
  | notWritable (path : Text)
  deriving DecidableEq

/-- The ways of running a program. -/
inductive Backend where
  /-- Step by step through the nested program. -/
  | interpret
  /-- In batches through flat code. -/
  | batches
  /-- As the script would run. -/
  | script
  deriving DecidableEq

inductive Error where
  /-- The source is not a program. -/
  | source (c : Complaint)
  /-- A run stopped before its end. -/
  | run (f : RunFault)
  /-- The optimization level is not an integer. -/
  | level (f : IntegerFault)
  | unknownPolicy (given : Scalar)
  | unknownBackend (given : Scalar)
  /-- A script has no step limit. -/
  | limitUnsupported
  /-- A dump in rows of width zero. -/
  | zeroWidth
  /-- A number that is not a byte is to be written out. -/
  | notByte
  /-- An instruction that has no statement in a script. -/
  | noStatement (i : Instruction)
  /-- An operation code that names no operation. -/
  | unknownOpcode (code : Int)
  /-- An operand that does not fit into sixty-four bits. -/
  | operandTooLarge
  | caret (f : Excerpt.CaretFault)
  | load (f : Script.LoadFault)
  | file (f : FileFault)
  deriving DecidableEq

def BracketFault.words : BracketFault → Text
  | unmatched _ => "Unmatched ']'"
  | unclosed _ => "Unclosed '['"

def BracketFault.complaint (source : Text) (f : BracketFault) : Complaint :=
  .make f.words source f.offset

def Backend.word : Backend → Text
  | interpret => "interpret"
  | batches => "jit"
  | script => "compiled"

/-- The ways of running, in the order in which they are offered. -/
def Backend.all : List Backend := [interpret, batches, script]

/-- A list of words with a comma between each two. -/
def enumerate : List Text → Text
  | [] => []
  | [word] => word
  | word :: words => word ++ ", " ++ enumerate words

/-- A command as it is named where it does not belong. -/
def Command.called : Command → Text
  | advance => "Advance()"
  | retreat => "Retreat()"
  | increment => "Increment()"
  | decrement => "Decrement()"
  | output => "Output()"
  | input => "Input()"

/-- Names in brackets. A single one has a comma behind it. -/
def tuple : List Text → Text
  | [name] => "(" ++ name ++ ",)"
  | names => "(" ++ enumerate names ++ ")"

/-- What a loop is called whose body holds what the names say. -/
def calledLoop (names : List Text) : Text := "Loop(body=" ++ tuple names ++ ")"

/-- The elements of a program as they are named, each with all that it holds. -/
def Program.called : Program → List Text
  | .nil => []
  | .leaf c rest => c.called :: called rest
  | .loop body rest => calledLoop (called body) :: called rest

/-- An instruction as it is named where it does not belong. -/
def Instruction.called : Instruction → Text
  | command c => c.called
  | loop body => calledLoop body.called

/-- How it is said that a run stopped. Code that is left by a jump and numbers that do not fit are
no matter of the program that is run, and nothing is said about them here. -/
def RunFault.message? : RunFault → Option Text
  | inputExhausted cell =>
    some ("RuntimeError: input exhausted at cell " ++ Numeral.integer cell)
  | stepLimit limit =>
    some ("RuntimeError: step limit of " ++ Numeral.integer limit ++ " exceeded")
  | astray _ | tooWide _ => none

/-- How much of a text that is no integer is shown. -/
def IntegerFault.shownLength : Nat := 200

def IntegerFault.message : IntegerFault → Text
  | wrongKind kind =>
    "int() argument must be a string, a bytes-like object or a real number, not " ++
      Quoted.quote kind
  | infinite => "cannot convert float infinity to integer"
  | undefined => "cannot convert float NaN to integer"
  | malformed text =>
    "invalid literal for int() with base 10: " ++ (Quoted.quote text).take shownLength
  | tooLong digits =>
    "Exceeds the limit (" ++ Numeral.natural IntegerLiteral.digitLimit ++
      " digits) for integer string conversion: value has " ++ Numeral.natural digits ++
      " digits; use sys.set_int_max_str_digits() to increase the limit"

def FileFault.message : FileFault → Text
  | missing path => "[Errno 2] No such file or directory: " ++ Quoted.quote path
  | directory path => "[Errno 21] Is a directory: " ++ Quoted.quote path
  | notDirectory path => "[Errno 20] Not a directory: " ++ Quoted.quote path
  | nameTooLong path => "[Errno 36] File name too long: " ++ Quoted.quote path
  | nullCharacter => "embedded null byte"
  | notWritable path => "no name can be written as " ++ Quoted.quote path

/-- How it is said that a word is none of the words expected. -/
def unknownWord (what : Text) (given : Scalar) (words : List Text) : Text :=
  "Unknown " ++ what ++ " " ++ given.quoted ++ " (expected one of: " ++
    enumerate words ++ ")"

/-- What is said about an error. What is too large to be worked with, what is wrong with a script,
and where flat code goes astray, has no text of its own. -/
def Error.message? : Error → Option Text
  | source c => some c.message
  | run f => f.message?
  | level f => some f.message
  | unknownPolicy given =>
    some (unknownWord "EOF policy" given (EndOfInput.all.map (·.word)))
  | unknownBackend given =>
    some (unknownWord "backend" given (Backend.all.map (·.word)))
  | limitUnsupported => some "step_limit is not supported by the compiled backend"
  | zeroWidth => some "range() arg 3 must not be zero"
  | notByte => some "bytes must be in range(0, 256)"
  | noStatement i => some ("Unexpected IR node " ++ i.called)
  | unknownOpcode code => some (Numeral.integer code)
  | operandTooLarge | caret _ | load _ => none
  | file f => some f.message

end TapeLang
