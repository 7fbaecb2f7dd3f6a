import TapeLang.Op
import TapeLang.Script

/-! Writing scripts from packed code.

A writer gives each loop the next free number when the loop opens, so that loops are numbered in the
order of their opening brackets, and fills in its function when the loop closes. Of what is left as
it is in a program only output and input have a statement; the first command or loop without one
stops the writer, with the functions begun so far still open. Writing starts over each time, so
nothing that an earlier script left behind shows in a later one. -/
namespace TapeLang

/-- What a writer has made of the loops so far. -/
structure Draft where
  /-- The functions by number; one whose loop is still open is empty. -/
  functions : Array (List Statement) := #[]
  /-- The deepest nesting met. -/
  depth : Nat := 0
  deriving DecidableEq

structure ScriptWriter where
  sourceName : Text
  level : Text
  policy : EndOfInput
  /-- What the last script has left. -/
  draft : Draft := {}
  deriving DecidableEq

/-- The statement of an operation, or the instruction that has none. -/
def Statement.ofOp : Op → Except Instruction Statement
  | .add amount => .ok (add amount)
  | .move distance => .ok (move distance)
  | .clear => .ok clear
  | .plain .output => .ok output
  | .plain .input => .ok input
  | .plain c => .error (.command c)
  | .plainLoop body => .error (.loop body)

namespace ScriptWriter

def namelessSource : Text := "<string>"

/-- A new writer. A source without a name, or with an empty one, is given one. -/
def make (level : Scalar) (policy : EndOfInput) (sourceName : Option Text) :
    ScriptWriter :=
  { sourceName := match sourceName with
      | none | some [] => namelessSource
      | some name => name
    level := level.shown
    policy }

/-- The statements of a body inside the given number of loops, after those written before, last
first. -/
def writeBody (level : Nat) : Packed → List Statement → Draft →
    Except Instruction (List Statement) × Draft
  | .nil, written, d => (.ok written.reverse, d)
  | .leaf op rest, written, d =>
    match Statement.ofOp op with
    | .ok s => writeBody level rest (s :: written) d
    | .error i => (.error i, d)
  | .loop body rest, written, ⟨functions, depth⟩ =>
    let number := functions.size
    match writeBody (level + 1) body [] ⟨functions.push [], max depth (level + 1)⟩ with
    | (.ok inner, ⟨functions, depth⟩) =>
      writeBody level rest (.call number :: written) ⟨functions.setIfInBounds number inner, depth⟩
    | (.error i, d) => (.error i, d)

/-- The script for packed code, or the first instruction that has no statement, with what the writer
is left with. -/
def write (w : ScriptWriter) (c : Packed) : Except Instruction Script × ScriptWriter :=
  match writeBody 0 c [] {} with
  | (.ok main, draft) =>
    (.ok { sourceName := w.sourceName
           level := w.level
           policy := w.policy
           depth := draft.depth
           functions := draft.functions
           main }, { w with draft })
  | (.error i, draft) => (.error i, { w with draft })

end ScriptWriter

end TapeLang
