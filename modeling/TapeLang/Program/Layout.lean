import TapeLang.Program

/-! Programs as indented text.

The brackets of a loop stand on lines of their own, two blanks further in for each loop around
them. The commands between two brackets stand together on one line. A loop always begins on a fresh
line and leaves one behind, so an empty line stands before each closing bracket that follows an
empty body or another loop. -/
namespace TapeLang.Program

def indent (level : Nat) : Text := .replicate (2 * level) ' '

/-- A body inside the given number of loops, in front of another text. The flag says that it begins
on a fresh line. -/
def layoutOnto (level : Nat) : Bool → Program → Text → Text
  | _, .nil, text => text
  | fresh, .leaf c rest, text =>
    (if fresh then indent level else []) ++ c.symbol :: layoutOnto level false rest text
  | fresh, .loop body rest, text =>
    (if fresh then "" else "\n") ++ indent level ++ "[\n" ++
      layoutOnto (level + 1) true body
        ("\n" ++ indent level ++ "]\n" ++ layoutOnto level true rest text)

def layout (p : Program) : Text := layoutOnto 0 true p []

end TapeLang.Program
