/-! Why a run stops before its end, and limits on its steps. -/
namespace TapeLang

/-- Why a run stops before its end. -/
inductive RunFault where
  /-- A byte was wanted at this cell when none was left. -/
  | inputExhausted (cell : Int)
  /-- The run took more steps than it may. -/
  | stepLimit (limit : Int)
  /-- A jump went to a place where there is no code. -/
  | astray (position : Int)
  /-- A number that flat code is to work with does not fit into sixty-four bits. -/
  | tooWide (number : Int)
  deriving DecidableEq

/-- The limit that a number of steps exceeds. -/
def exceeded? (limit : Option Int) (steps : Nat) : Option Int := limit.filter (· < steps)

end TapeLang
