import TapeLang.Error
import TapeLang.Flat.Lowering
import TapeLang.Op.Pass
import TapeLang.Script.Writer

/-! From the text of a program and the options given with it to something that can run.

Each step fails with an error of its own: the text may not be a program, an option may not be what
is wanted, packed code may not fit into flat code or a script, and a script may not load. -/
namespace TapeLang

/-- The program a text spells, or the complaint about it. -/
def Program.parse (source : Text) : Except Error Program :=
  match Program.read source with
  | .ok p => .ok p
  | .error f => .error (.source (f.complaint source))

def EndOfInput.ofScalar (s : Scalar) : Except Error EndOfInput :=
  match ofScalar? s with
  | some p => .ok p
  | none => .error (.unknownPolicy s)

/-- A program as packed code of a level given as a scalar. -/
def Packed.ofLevel (level : Scalar) (p : Program) : Except Error Packed :=
  match level.toInteger with
  | .ok level => .ok (optimize level p)
  | .error f => .error (.level f)

def Packed.lower (c : Packed) : Except Error Flat :=
  match c.lower? with
  | some f => .ok f
  | none => .error .operandTooLarge

/-- The script of packed code by a writer, and the writer afterwards. -/
def ScriptWriter.script (w : ScriptWriter) (c : Packed) : Except Error Script × ScriptWriter :=
  match w.write c with
  | (script, w) => (script.mapError .noStatement, w)

def scriptOf (level policy : Scalar) (sourceName : Option Text) (p : Program) :
    Except Error Script := do
  let c ← Packed.ofLevel level p
  let policy ← EndOfInput.ofScalar policy
  ((ScriptWriter.make level policy sourceName).script c).1

/-- A script ready to be called. -/
def Script.load (s : Script) : Except Error Script :=
  match s.loadFault? with
  | none => .ok s
  | some f => .error (.load f)

end TapeLang
