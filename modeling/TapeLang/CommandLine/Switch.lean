import TapeLang.EndOfInput

/-! The switches of the command line and the help about them. -/
namespace TapeLang.CommandLine

inductive Switch where
  | help
  | run
  | batches
  | listing
  | output
  | level
  | policy
  | dumpTape
  | verbose
  deriving DecidableEq

namespace Switch

/-- The switches in the order in which they are offered. -/
def all : List Switch := [help, run, batches, listing, output, level, policy, dumpTape, verbose]

def spellings : Switch → List Text
  | help => ["-h", "--help"]
  | run => ["-r", "--run"]
  | batches => ["--jit"]
  | listing => ["--emit-ir"]
  | output => ["-o"]
  | level => ["-O"]
  | policy => ["--eof"]
  | dumpTape => ["--dump-tape"]
  | verbose => ["-v", "--verbose"]

def takesValue : Switch → Bool
  | output | level | policy => true
  | _ => false

/-- Words with a mark between each two. -/
def between (mark : Text) : List Text → Text
  | [] => []
  | [word] => word
  | word :: words => word ++ mark ++ between mark words

/-- A switch as it is named in an error. -/
def label (s : Switch) : Text := between "/" s.spellings

/-- Every spelling with its switch. -/
def spelled : List (Text × Switch) :=
  all.flatMap fun s => s.spellings.map fun spelling => (spelling, s)

/-- The switch that a text spells in full. -/
def ofSpelling? (text : Text) : Option Switch :=
  (spelled.find? (·.1 = text)).map (·.2)

end Switch

/-- The levels that can be asked for. -/
def levels : List Int := [0, 1, 2]

/-- How the program is called. -/
def usage : String :=
  "usage: bftape [-h] [-r | --jit | --emit-ir] [-o OUTPUT_FILENAME] [-O \x7b0,1,2\x7d]\n" ++
  "              [--eof \x7berror,zero,unchanged\x7d] [--dump-tape] [-v]\n" ++
  "              input_filename\n"

/-- What the help says. -/
def helpText : String :=
  usage ++
    "\nRun or compile programs for the eight-instruction tape language.\n" ++
    "\npositional arguments:\n" ++
    "  input_filename        Source file\n" ++
    "\noptions:\n" ++
    "  -h, --help            show this help message and exit\n" ++
    "  -r, --run             Interpret instead of compile\n" ++
    "  --jit                 Run through the numba-compiled flat-code runner\n" ++
    "  --emit-ir             Emit the lowered flat-code listing only\n" ++
    "  -o OUTPUT_FILENAME    Name of the file to be generated\n" ++
    "  -O \x7b0,1,2\x7d            Sets the optimization level (default: 2)\n" ++
    "  --eof \x7berror,zero,unchanged\x7d\n" ++
    "                        Behavior of ',' once input is exhausted (default:\n" ++
    "                        error)\n" ++
    "  --dump-tape           Print the final tape window to stderr\n" ++
    "  -v, --verbose         Enable debug logging on stderr\n"

end TapeLang.CommandLine
