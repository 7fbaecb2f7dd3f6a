import TapeLang.Code
import TapeLang.Text

/-! Programs of the tape language.

A program is a nested sequence of six commands: move the cursor one cell up or down, add or subtract
one in the current cell, write the cell out, read a byte into it. Each command has a symbol; a loop
stands between brackets. All other characters are comments. -/
namespace TapeLang

/-- What a program does in one place. -/
inductive Command where
  | advance
  | retreat
  | increment
  | decrement
  | output
  | input
  deriving DecidableEq, Inhabited

abbrev Program := Code Command

/-- An element of a program. -/
inductive Instruction where
  | command (c : Command)
  | loop (body : Program)
  deriving DecidableEq

def Command.symbol : Command → CodePoint
  | advance => '>'
  | retreat => '<'
  | increment => '+'
  | decrement => '-'
  | output => '.'
  | input => ','

/-- A character that is not a comment. -/
inductive Token where
  | command (c : Command)
  | opening
  | closing
  deriving DecidableEq

/-- The token a code point is, if it is no comment. -/
def Token.ofCodePoint? : CodePoint → Option Token
  | .char '>' => some (.command .advance)
  | .char '<' => some (.command .retreat)
  | .char '+' => some (.command .increment)
  | .char '-' => some (.command .decrement)
  | .char '.' => some (.command .output)
  | .char ',' => some (.command .input)
  | .char '[' => some .opening
  | .char ']' => some .closing
  | _ => none

theorem Token.ofCodePoint?_symbol (c : Command) :
    Token.ofCodePoint? c.symbol = some (.command c) := by
  cases c <;> rfl

namespace Program

/-- The text of a program in front of another text. -/
def spellOnto : Program → Text → Text
  | .nil, text => text
  | .leaf c rest, text => c.symbol :: spellOnto rest text
  | .loop body rest, text => .char '[' :: spellOnto body (.char ']' :: spellOnto rest text)

/-- A program as text: the symbols of its commands, and its loops between brackets. -/
def spelling (p : Program) : Text := p.spellOnto []

theorem spellOnto_append (p : Program) (front text : Text) :
    p.spellOnto (front ++ text) = p.spellOnto front ++ text := by
  induction p generalizing front with
  | nil => rfl
  | leaf c rest ih => exact congrArg (c.symbol :: ·) (ih front)
  | loop body rest ihb ihr =>
    simp only [spellOnto, ihr, List.cons_append]
    rw [← List.cons_append, ihb]

theorem spellOnto_eq (p : Program) (text : Text) : p.spellOnto text = p.spelling ++ text :=
  p.spellOnto_append [] text

@[simp] theorem spelling_nil : spelling .nil = [] := rfl

@[simp] theorem spelling_leaf (c : Command) (rest : Program) :
    spelling (.leaf c rest) = c.symbol :: spelling rest := rfl

@[simp] theorem spelling_loop (body rest : Program) :
    spelling (.loop body rest) = .char '[' :: (spelling body ++ .char ']' :: spelling rest) := by
  rw [← spellOnto_eq]
  rfl

end Program

end TapeLang
