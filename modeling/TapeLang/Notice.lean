import TapeLang.Tape.Dump

/-! What a run reports while it goes on.

A notice is a line that names the part it comes from and says what happened there. -/
namespace TapeLang

/-- Something worth reporting. -/
inductive Notice where
  | grew (g : Growth)
  /-- A walk through a program of the given size begins. -/
  | walking (size : Nat)
  /-- A walk has ended after the given number of steps. -/
  | walked (steps : Nat) (t : Tape)
  /-- A run of flat code of the given size begins. -/
  | batching (size : Nat)
  /-- A run of flat code has ended after the given number of steps. -/
  | batched (steps : Nat) (t : Tape)
  /-- A script of the given number of lines has been written. -/
  | scriptWritten (lines : Nat) (sourceName : Text)

def Growth.words (g : Growth) : Text :=
  match g.side with
  | .left =>
    "tape grew left by " ++ Numeral.natural g.amount ++ " (origin_offset=" ++
      Numeral.integer g.originOffset ++ ", size=" ++ Numeral.natural g.size ++ ")"
  | .right =>
    "tape grew right by " ++ Numeral.natural g.amount ++ " (size=" ++
      Numeral.natural g.size ++ ")"

def Notice.line : Notice → Text
  | grew g => "bftape.tape DEBUG: " ++ g.words
  | walking size =>
    "bftape.interpreter DEBUG: interpreting " ++ Numeral.natural size ++
      " instructions"
  | walked steps t =>
    "bftape.interpreter DEBUG: interpreter finished after " ++ Numeral.natural steps ++
      " steps: " ++ t.summary
  | batching size =>
    "bftape.jit DEBUG: jit running " ++ Numeral.natural size ++ " flat ops"
  | batched steps t =>
    "bftape.jit DEBUG: jit finished after " ++ Numeral.natural steps ++
      " steps: " ++ t.summary
  | scriptWritten lines sourceName =>
    "bftape.emitter DEBUG: emitted " ++ Numeral.natural lines ++
      " lines of Python for " ++ sourceName

end TapeLang
