import TapeLang.Program

/-! Reading a program from text.

One pass over the characters keeps the bodies of the loops that are still open, innermost first,
each with the offset of its bracket. A closing bracket with no open loop is a fault where it
stands; a loop still open at the end is a fault at the last such bracket. -/
namespace TapeLang

/-- Why a text is not a program, with the offset of the bracket at fault. -/
inductive BracketFault where
  /-- A closing bracket without an opening one. -/
  | unmatched (offset : Nat)
  /-- An opening bracket without a closing one. -/
  | unclosed (offset : Nat)
  deriving DecidableEq

def BracketFault.offset : BracketFault → Nat
  | unmatched offset => offset
  | unclosed offset => offset

namespace Program

structure OpenLoop where
  /-- The offset of its bracket. -/
  offset : Nat
  /-- What stands in front of it in the body it belongs to, last first. -/
  before : Program

/-- A text partly read. -/
structure Reader where
  /-- The open loops, innermost first. -/
  openLoops : List OpenLoop
  /-- The innermost body so far, last first. -/
  built : Program

def Reader.start : Reader := ⟨[], .nil⟩

/-- One more code point, at the given offset. -/
def Reader.accept (r : Reader) (offset : Nat) (c : CodePoint) : Except BracketFault Reader :=
  match Token.ofCodePoint? c with
  | none => .ok r
  | some (.command c) => .ok { r with built := .leaf c r.built }
  | some .opening => .ok ⟨⟨offset, r.built⟩ :: r.openLoops, .nil⟩
  | some .closing =>
    match r.openLoops with
    | [] => .error (.unmatched offset)
    | l :: openLoops => .ok ⟨openLoops, .loop r.built.reverse l.before⟩

def Reader.finish (r : Reader) : Except BracketFault Program :=
  match r.openLoops with
  | [] => .ok r.built.reverse
  | l :: _ => .error (.unclosed l.offset)

/-- The rest of a text, from the given offset on. -/
def Reader.acceptAll (r : Reader) (offset : Nat) : Text → Except BracketFault Program
  | [] => r.finish
  | c :: text =>
    match r.accept offset c with
    | .error fault => .error fault
    | .ok r => r.acceptAll (offset + 1) text

def read (text : Text) : Except BracketFault Program := Reader.start.acceptAll 0 text

end Program

end TapeLang
