import TapeLang.Flat.Batch
import TapeLang.Machine
import TapeLang.RunFault

/-! Running flat code on the machine.

The runner lets batches run and does what they stop for: it makes a cell stored, writes a byte out,
reads a byte. A step is one slot of flat code, output and input included; making a cell stored is
none. A batch may take one step more than the limit allows, so that exceeding the limit shows; the
limit is looked at after each batch and after each service. A run resumes where the last one
stopped. -/
namespace TapeLang

/-- Flat code in the middle of its run. -/
structure Runner where
  machine : Machine
  position : Int := 0
  /-- How many steps have been counted. -/
  steps : Nat := 0
  deriving DecidableEq

/-- What one batch with its service comes to. -/
inductive Runner.Next where
  | running (r : Runner)
  /-- The run is over, by a fault or without one. -/
  | stopped (fault : Option RunFault) (r : Runner)

namespace Runner

/-- The number of steps given to the next batch, which may be below zero. -/
def allowance (batchSteps : Int) (limit : Option Int) (steps : Nat) : Int :=
  match limit with
  | none => batchSteps
  | some limit => min batchSteps (limit - steps + 1)

/-- How many steps the next batch may take. -/
def budget (batchSteps : Int) (limit : Option Int) (steps : Nat) : Nat :=
  (allowance batchSteps limit steps).toNat

/-- The number the next batch starts with that does not fit into a word. Batches that follow need no
such look: the cursor has come out of a batch, and the allowance has not grown. -/
def misfit? (batchSteps : Int) (limit : Option Int) (r : Runner) : Option Int :=
  Batch.misfit? (allowance batchSteps limit r.steps) ⟨r.machine.tape, r.position, 0⟩

def runBatch (f : Flat) (budget : Nat) : Runner → Stop × Runner
  | ⟨⟨tape, unread, written, growths⟩, position, steps⟩ =>
    match Batch.run f budget ⟨tape, position, 0⟩ with
    | (stop, ⟨tape, position, taken⟩) =>
      (stop, ⟨⟨tape, unread, written, growths⟩, position, steps + taken⟩)

/-- The runner goes on if the limit allows. -/
def checked (limit : Option Int) (r : Runner) : Next :=
  match exceeded? limit r.steps with
  | some limit => .stopped (some (.stepLimit limit)) r
  | none => .running r

/-- The runner past a slot that it has served. -/
def served (m : Machine) (position : Int) (steps : Nat) : Runner := ⟨m, position + 1, steps + 1⟩

/-- What a batch stopped for. -/
def serve (policy : EndOfInput) (limit : Option Int) : Stop → Runner → Next
  | .ended, r => .stopped none r
  | .output, ⟨m, position, steps⟩ => checked limit (served m.output position steps)
  | .input, ⟨m, position, steps⟩ =>
    match m.input policy with
    | .ended m => checked limit (served m position steps)
    | .exhausted m => .stopped (some (.inputExhausted m.tape.cursor)) ⟨m, position, steps⟩
  | .grow, ⟨m, position, steps⟩ => checked limit ⟨m.touch, position, steps⟩
  | .budget, r => checked limit r
  | .astray, r => .stopped (some (.astray r.position)) r

/-- One batch and what it stopped for. -/
def turn (f : Flat) (policy : EndOfInput) (batchSteps : Int) (limit : Option Int) (r : Runner) :
    Next :=
  match r.runBatch f (budget batchSteps limit r.steps) with
  | (stop, r) =>
    match checked limit r with
    | .running r => serve policy limit stop r
    | next => next

/-- The loop of a run: how it ends, if it does in at most `fuel` batches. The numbers that the run
starts with have been looked at by then (`batch`). -/
def run (f : Flat) (policy : EndOfInput) (batchSteps : Int) (limit : Option Int) :
    Nat → Runner → Option (Option RunFault × Runner)
  | 0, _ => none
  | fuel + 1, r =>
    match r.turn f policy batchSteps limit with
    | .running r => run f policy batchSteps limit fuel r
    | .stopped fault r => some (fault, r)

end Runner

/-- How many steps a batch may take where nothing else is said. -/
def defaultBatchSteps : Int := 1000000

end TapeLang
