import TapeLang.Flat.Runner
import TapeLang.Notice
import TapeLang.Preparation
import TapeLang.Program.Walker
import TapeLang.Script.Running

/-! Running programs.

A program can be run in three ways: step by step as it is, in batches as flat code, or as the script
made from it. Each way starts from the text of the program and ends with a machine or an
error. A run that goes on for longer than its fuel has no result. -/
namespace TapeLang

/-- A run that is over. -/
structure Ran where
  /-- Why it stopped before its end, if it did. -/
  fault? : Option RunFault
  machine : Machine
  /-- All steps counted so far, those of earlier runs included. -/
  steps : Nat
  /-- Where it stands in flat code. -/
  position : Int
  notices : List Notice

/-- The notices of the growths after the first `known` ones. -/
def growthNotices (known : Nat) (m : Machine) : List Notice :=
  (m.growths.toList.drop known).map .grew

/-- A run of a program from its start, with the steps counted before it. -/
def walk (fuel : Nat) (policy : EndOfInput) (limit : Option Int) (p : Program) (m : Machine)
    (steps : Nat) : Option Ran :=
  let known := m.growths.size
  match (Walker.start p m steps).run policy limit fuel with
  | none => none
  | some (fault?, w) =>
    let finish := match fault? with
      | none => [Notice.walked w.steps w.machine.tape]
      | some _ => []
    some
      { fault?
        machine := w.machine
        steps := w.steps
        position := 0
        notices := .walking p.size :: growthNotices known w.machine ++ finish }

/-- A run of flat code from where the runner stands. It does not start if it is given a number that
does not fit into a word. -/
def batch (fuel : Nat) (policy : EndOfInput) (batchSteps : Int) (limit : Option Int) (f : Flat)
    (r : Runner) : Option Ran :=
  let known := r.machine.growths.size
  let ended := match r.misfit? batchSteps limit with
    | some number => some (some (RunFault.tooWide number), r)
    | none => r.run f policy batchSteps limit fuel
  match ended with
  | none => none
  | some (fault?, r) =>
    let finish := match fault? with
      | none => [Notice.batched r.steps r.machine.tape]
      | some _ => []
    some
      { fault?
        machine := r.machine
        steps := r.steps
        position := r.position
        notices := .batching f.size :: growthNotices known r.machine ++ finish }

/-- A run of a script, and why it stopped before its end, if it did. -/
def Script.run (fuel : Nat) (s : Script) (m : Machine) : Option (Option RunFault × Machine) :=
  match s.eval fuel m with
  | none => none
  | some (.ended m) => some (none, m)
  | some (.exhausted m) => some (some (.inputExhausted m.tape.cursor), m)

structure RunOptions where
  policy : Scalar := .text "error"
  limit : Option Int := none
  backend : Scalar := .text "interpret"
  level : Scalar := .int 2

/-- The machine a run leaves, or why it stopped. -/
def finished (fault? : Option RunFault) (m : Machine) : Except Error Machine :=
  match fault? with
  | none => .ok m
  | some f => .error (.run f)

/-- A program run on a fresh tape. -/
def runProgram (fuel : Nat) (options : RunOptions) (p : Program) (input : List UInt8) :
    Option (Except Error Machine) :=
  let m : Machine := { unread := input }
  match Backend.all.find? (.text ·.word = options.backend) with
  | some .interpret =>
    match EndOfInput.ofScalar options.policy with
    | .error e => some (.error e)
    | .ok policy =>
      (walk fuel policy options.limit p m 0).map fun r => finished r.fault? r.machine
  | some .batches =>
    match Packed.ofLevel options.level p >>= Packed.lower with
    | .error e => some (.error e)
    | .ok f =>
      match EndOfInput.ofScalar options.policy with
      | .error e => some (.error e)
      | .ok policy =>
        (batch fuel policy defaultBatchSteps options.limit f { machine := m }).map fun r =>
          finished r.fault? r.machine
  | some .script =>
    if options.limit.isSome then some (.error .limitUnsupported)
    else
      match scriptOf options.level options.policy none p >>= Script.load with
      | .error e => some (.error e)
      | .ok s => (s.run fuel m).map fun (fault?, m) => finished fault? m
  | none => some (.error (.unknownBackend options.backend))

/-- A program text run on a fresh tape. -/
def runSource (fuel : Nat) (options : RunOptions) (source : Text) (input : List UInt8) :
    Option (Except Error Machine) :=
  match Program.parse source with
  | .error e => some (.error e)
  | .ok p => runProgram fuel options p input

end TapeLang
