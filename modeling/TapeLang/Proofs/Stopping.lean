import TapeLang.Proofs.Resumption

/-! A limit stops every run.

Neither way of running counts a step in each of its transitions: a walk leaves a sequence that is
done without counting that, and a run in batches takes a turn to make a cell stored. But a sequence
that is left has been entered by a step, and a cell that has been made stored lets the next turn
take one. So what the limit still allows, taken twice, together with the sequences to be left or the
cell to be made stored, falls in every transition, whatever the program does (`Walker.slack_lt`,
`Runner.slack_lt`), and the loops of both ways of running come to an end after a number of rounds
that the limit alone decides (`limited_runs_stop`). -/
namespace TapeLang
open Course (Leads Halts Falls)

/-! ### Walks -/

namespace Walker
variable {policy : EndOfInput} {limit : Int} {w w' : Walker}

/-- The steps that a limit still allows, twice, and the sequences that are to be left. -/
def slack (limit : Int) (w : Walker) : Nat := 2 * (limit - w.steps).toNat + w.frames.length

/-- A transition puts at most one sequence on the others, and leaves one if it counts no step. -/
theorem frames_of_move (goes : move policy none w = .inl w') :
    w'.steps = w.steps ∧ w'.frames.length + 1 = w.frames.length ∨
      w'.steps = w.steps + 1 ∧ w'.frames.length ≤ w.frames.length + 1 := by
  cases goesOn_of_move goes with
  | leave frames m steps => exact .inl ⟨rfl, rfl⟩
  | leaf run rest frames steps => exact .inr ⟨rfl, Nat.le_succ _⟩
  | skip zero body rest frames steps => exact .inr ⟨rfl, Nat.le_succ _⟩
  | enter nonzero body rest frames steps => exact .inr ⟨rfl, Nat.le_refl _⟩

theorem slack_lt (goes : move policy (some limit) w = .inl w') :
    w'.slack limit < w.slack limit := by
  rcases move_counted policy w with ⟨uncounted, taken⟩ | ⟨counted, taken⟩
  · have free : move policy none w = .inl w' := (taken (some limit)).symm.trans goes
    rw [free, Sum.elim_inl] at uncounted
    rcases frames_of_move free with ⟨same, fewer⟩ | ⟨more, -⟩
    · simp only [slack, same]
      omega
    · omega
  · rw [taken] at goes
    cases exceeded : exceeded? (some limit) (w.steps + 1) with
    | some l =>
      rw [exceeded] at goes
      cases goes
    | none =>
      have allowed := Runner.exceeded?_eq_none_iff.1 exceeded limit rfl
      have free : move policy none w = .inl w' := by rwa [exceeded] at goes
      rw [free, Sum.elim_inl] at counted
      rcases frames_of_move free with ⟨same, -⟩ | ⟨more, grown⟩
      · omega
      · simp only [slack, more]
        omega

/-- A walk stops at its end, for want of a byte, or for its limit. -/
theorem expected_of_stop {limit : Option Int} {e : Option RunFault × Walker}
    (stop : move policy limit w = .inr e) : Runner.Expected limit e.1 := by
  have free : move policy none w = .inr e → Runner.Expected limit e.1 := fun stop => by
    obtain rfl | ⟨_, _, -, rfl⟩ := stops_of_move stop <;> trivial
  rcases move_counted policy w with ⟨-, taken⟩ | ⟨-, taken⟩
  · exact free ((taken limit).symm.trans stop)
  · rw [taken] at stop
    cases exceeded : exceeded? limit (w.steps + 1) with
    | some l =>
      rw [exceeded] at stop
      cases stop
      exact Runner.limit_of_exceeded exceeded
    | none =>
      rw [exceeded] at stop
      exact free stop

end Walker

/-! ### Runs of flat code -/

namespace Runner
variable {f : Flat} {policy : EndOfInput} {limit : Int} {r r' : Runner}

/-- The steps that are taken before a limit is exceeded, twice, and one if the cell at the cursor is
not stored. -/
def slack (limit : Int) (r : Runner) : Nat :=
  2 * (limit + 1 - r.steps).toNat +
    if 0 ≤ Batch.index r.machine.tape ∧ Batch.index r.machine.tape < r.machine.tape.size then 0
    else 1

theorem slack_lt (goes : advance f policy (some limit) r = .inl r')
    (fits : r.steps ≤ limit → f.Accesses r.position → r.machine.Fits) :
    r'.slack limit < r.slack limit := by
  cases exceeded : exceeded? (some limit) r.steps with
  | some l => exact nomatch (advance_of_exceeded exceeded).symm.trans goes
  | none =>
    have within := exceeded?_eq_none_iff.1 exceeded limit rfl
    rw [advance_of_free exceeded] at goes
    rcases counted_or_grown goes with counted | ⟨rfl, accesses, outside⟩
    · simp only [slack, counted]
      split <;> split <;> omega
    · have stored := (Machine.stored_iff_index (Machine.fits_touch (fits within accesses))).1
        r.machine.stored_touch
      simp only [slack, if_pos stored, if_neg outside]
      omega

theorem falls_slack (fits : ∀ r', Leads (advance f policy (some limit)) r r' → r'.steps ≤ limit →
      f.Accesses r'.position → r'.machine.Fits) :
    Falls (advance f policy (some limit)) (slack limit) r :=
  fun t _ leads goes => slack_lt goes (fits t leads)

/-- A run in batches under a limit has a result, which the run slot by slot stops with, once its
fuel exceeds twice the steps that the limit allows and one. -/
theorem exists_result {batchSteps : Int} (hb : 1 ≤ batchSteps)
    (fits : ∀ r', Leads (advance f policy (some limit)) r r' → r'.steps ≤ limit →
      f.Accesses r'.position → r'.machine.Fits) :
    ∃ e, Halts (advance f policy (some limit)) r e ∧ ∀ fuel,
      2 * (limit + 1 - r.steps).toNat + 2 ≤ fuel →
        r.run f policy batchSteps (some limit) fuel = some e := by
  have turns : Falls (fun r => (turn f policy batchSteps (some limit) r).asSum) (slack limit) r :=
    (falls_slack fits).coarser fun r r' goes => by
      have spec := turn_spec f policy (some limit) hb r
      rw [goes] at spec
      exact spec
  obtain ⟨e, -, ran⟩ := turns.exists_result
  have ran : ∀ fuel, r.slack limit < fuel → r.run f policy batchSteps (some limit) fuel = some e :=
    fun fuel enough => (run_eq batchSteps fuel r).trans (ran fuel enough)
  refine ⟨e, (run_iff_halts hb).1 ⟨_, ran _ (Nat.lt_succ_self _)⟩, fun fuel enough => ran fuel ?_⟩
  simp only [slack]
  split <;> omega

end Runner

/-! ### Both ways of running -/

/-- What is told of a walk that stops. -/
def Ran.ofWalker (p : Program) (known : Nat) (e : Option RunFault × Walker) : Ran where
  fault? := e.1
  machine := e.2.machine
  steps := e.2.steps
  position := 0
  notices := .walking p.size :: growthNotices known e.2.machine ++
    match e.1 with
    | none => [Notice.walked e.2.steps e.2.machine.tape]
    | some _ => []

theorem walk_eq_map (fuel : Nat) (policy : EndOfInput) (limit : Option Int) (p : Program)
    (m : Machine) (before : Nat) :
    walk fuel policy limit p m before =
      ((Walker.start p m before).run policy limit fuel).map
        (Ran.ofWalker p m.growths.size) := by
  simp only [walk]
  cases (Walker.start p m before).run policy limit fuel <;> rfl

/-- **A limit stops every run, whatever the program does.** A walk through any program, from any
machine and with any number of steps counted before, comes to an end within twice as many rounds as
there are steps left, and two. So do the turns of a run of lowered code, in batches of any size,
from any machine or from where any turns before have left the runner, if the cells that it accesses
before the limit is exceeded have addresses and indexes that fit into words. Both have come to their
end then, or want a byte that is not there, or have exceeded the limit; only a run that is given a
number to start with that does not fit into a word does not start. -/
theorem limited_runs_stop (policy : EndOfInput) (limit : Int) :
    (∀ (p : Program) (m : Machine) (before : Nat), ∃ ran,
      (∀ fuel, 2 * (limit - before).toNat + 2 ≤ fuel →
        walk fuel policy (some limit) p m before = some ran) ∧
      Runner.Expected (some limit) ran.fault?) ∧
    ∀ (c : Packed) (f : Flat) (m : Machine) (r : Runner) (batchSteps : Int),
      c.lower? = some f → 1 ≤ batchSteps → Runner.Reachable f policy m r →
      (∀ r', Leads (Runner.advance f policy (some limit)) r r' → r'.steps ≤ limit →
        f.Accesses r'.position → r'.machine.Fits) →
      ∃ ran,
        (∀ fuel, 2 * (limit + 1 - r.steps).toNat + 2 ≤ fuel →
          batch fuel policy batchSteps (some limit) f r = some ran) ∧
        (Runner.Expected (some limit) ran.fault? ∨
          ∃ number, r.misfit? batchSteps (some limit) = some number ∧
            ran.fault? = some (.tooWide number)) := by
  refine ⟨fun p m before => ?_, fun c f m r batchSteps lowered hb reachable fits => ?_⟩
  · have falls : Falls (Walker.move policy (some limit)) (Walker.slack limit)
        (Walker.start p m before) := fun _ _ _ goes => Walker.slack_lt goes
    obtain ⟨e, ⟨last, -, stop⟩, ran⟩ := falls.exists_result
    refine ⟨Ran.ofWalker p m.growths.size e, fun fuel enough => ?_, Walker.expected_of_stop stop⟩
    have slack : (Walker.start p m before).slack limit < fuel := enough
    rw [walk_eq_map, Walker.run_eq, ran fuel slack, Option.map_some]
  · cases misfit : r.misfit? batchSteps (some limit) with
    | some number => exact ⟨_, fun fuel _ => batch_of_misfit misfit fuel, .inr ⟨number, rfl, rfl⟩⟩
    | none =>
      have closed := Flat.closed_of_lower lowered
      have first := (Runner.covers_of_reachable closed reachable).1
      have admits : f.Admits r.position := Int.le_trans (by omega) first
      obtain ⟨e, halts, ran⟩ := Runner.exists_result hb fits
      refine ⟨Ran.ofRunner f r.machine.growths.size e, fun fuel enough => ?_,
        .inl (Runner.expected_of_halts closed.anchored admits halts)⟩
      rw [batch_eq_map misfit, ran fuel enough, Option.map_some]

/-! ### A program without an end -/

/-- One cell after the other is set to one, for ever: `+[>+]`. -/
def Program.trail : Program :=
  .leaf .increment <| .loop (.leaf .advance <| .leaf .increment .nil) .nil

/-- The same as packed code. -/
def Packed.trail : Packed :=
  .leaf (.add 1) <| .loop (.leaf (.move 1) <| .leaf (.add 1) .nil) .nil

def Flat.trail : Flat := ⟨#[1, 5, 0, 1, 6], #[1, 5, 1, 1, 2]⟩

theorem fits_trail {policy : EndOfInput} {r : Runner}
    (leads : Leads (Runner.advance .trail policy (some 3)) { machine := {} } r) :
    r.machine.Fits := by
  have tested : Course.tested (Runner.advance .trail policy (some 3))
      (fun r => decide r.machine.Fits) 7 { machine := {} } = true := rfl
  have passed := Course.of_tested tested leads
  exact of_decide_eq_true passed

/-- Under a limit of three the endless program is stopped within eight rounds of the walk, and
within ten turns of one slot each, two of which make a cell stored. -/
theorem limited_runs_stop_trail :
    (∃ ran, (∀ fuel, 8 ≤ fuel → walk fuel .error (some 3) .trail {} 0 = some ran) ∧
      ran.fault? = some (.stepLimit 3) ∧ ran.steps = 4) ∧
    ∃ f, Packed.trail.lower? = some f ∧
      ∃ ran, (∀ fuel, 10 ≤ fuel → batch fuel .error 1 (some 3) f { machine := {} } = some ran) ∧
        ran.fault? = some (.stepLimit 3) ∧ ran.steps = 4 ∧ ran.machine.growths.size = 2 := by
  obtain ⟨walks, batches⟩ := limited_runs_stop .error 3
  constructor
  · obtain ⟨ran, stops, -⟩ := walks .trail {} 0
    have result : some ran = walk 8 .error (some 3) .trail {} 0 := (stops 8 (by decide)).symm
    refine ⟨ran, fun fuel enough => stops fuel enough, ?_⟩
    cases result
    exact ⟨rfl, rfl⟩
  · have lowered : Packed.trail.lower? = some .trail := rfl
    obtain ⟨ran, stops, -⟩ := batches .trail .trail {} { machine := {} } 1 lowered (by decide)
      .start fun r leads _ _ => fits_trail leads
    have result : some ran = batch 10 .error 1 (some 3) .trail { machine := {} } :=
      (stops 10 (by decide)).symm
    refine ⟨.trail, lowered, ran, fun fuel enough => stops fuel enough, ?_⟩
    cases result
    exact ⟨rfl, rfl, rfl⟩

end TapeLang
