import TapeLang.Proofs.Walking

/-! What a walk counts.

A walk keeps a stack of frames and counts a step before it takes it. What it does is said without a
stack by the evaluation of nested code, and what it counts by a tally that the evaluation keeps:
each leaf that is executed, and for each time a loop is reached the number of its rounds. The tally
changes no outcome (`eval_eq_evalTallied`). A loop that is looked at once before each round and once
more to be left costs its rounds and one step beyond the steps inside, so a tally of an evaluation
that ends is as many steps as the evaluation takes (`reaches_of_evalTallied`). So a walk ends,
fails, or goes on for ever with the evaluation of the program, and counts its tally
(`walk_iff_eval`). -/
namespace TapeLang

/-- What an evaluation has done so far. -/
structure Tally where
  /-- How many leaves were executed. -/
  leaves : Nat := 0
  /-- The rounds of each loop, for each time that it was reached and left, the last one first. -/
  rounds : List Nat := []
  deriving DecidableEq

namespace Tally

def leaf (t : Tally) : Tally := { t with leaves := t.leaves + 1 }

/-- One more loop, left after a number of rounds. -/
def loop (t : Tally) (rounds : Nat) : Tally := { t with rounds := rounds :: t.rounds }

/-- The steps that a tally stands for: one for each leaf, and for each time a loop was reached one
for each round and one more. -/
def steps (t : Tally) : Nat :=
  t.leaves + t.rounds.foldr (fun rounds steps => rounds + 1 + steps) 0

theorem steps_leaf (t : Tally) : t.leaf.steps = t.steps + 1 := by
  simp only [steps, leaf]
  omega

theorem steps_loop (t : Tally) (rounds : Nat) : (t.loop rounds).steps = t.steps + rounds + 1 := by
  simp only [steps, loop, List.foldr_cons]
  omega

end Tally

/-- A loop, with what its body does, after a number of rounds. -/
def repeatTallied (body : Machine → Tally → Option (Outcome × Tally)) (done : Nat) :
    Nat → Machine → Tally → Option (Outcome × Tally)
  | 0, _, _ => none
  | bound + 1, m, t =>
    let m := m.touch
    if m.current = 0 then some (.ended m, t.loop done)
    else
      match body m t with
      | some (.ended m, t) => repeatTallied body (done + 1) bound m t
      | stopped => stopped

namespace Code
variable {α : Type} {exec : α → Machine → Outcome} {c body rest : Code α} {rounds : Nat}
  {m m' : Machine} {t t' : Tally}

/-- The outcome of nested code and its tally added to another one, if no loop takes more than the
given number of rounds. -/
def evalTallied (exec : α → Machine → Outcome) (rounds : Nat) :
    Code α → Machine → Tally → Option (Outcome × Tally)
  | nil, m, t => some (.ended m, t)
  | leaf a rest, m, t =>
    match exec a m with
    | .ended m => evalTallied exec rounds rest m t.leaf
    | .exhausted m => some (.exhausted m, t)
  | loop body rest, m, t =>
    match repeatTallied (fun m t => evalTallied exec rounds body m t) 0 rounds m t with
    | some (.ended m, t) => evalTallied exec rounds rest m t
    | stopped => stopped

/-! ### A tally changes no outcome -/

theorem repeatWhile_eq_repeatTallied
    (hbody : ∀ m t, (body.evalTallied exec rounds m t).map Prod.fst = body.eval exec rounds m)
    (done bound : Nat) (m : Machine) (t : Tally) :
    (repeatTallied (fun m t => body.evalTallied exec rounds m t) done bound m t).map Prod.fst =
      repeatWhile (fun m => body.eval exec rounds m) bound m := by
  induction bound generalizing done m t with
  | zero => rfl
  | succ bound ih =>
    simp only [repeatTallied, repeatWhile, ← hbody m.touch t]
    split
    · rfl
    · rcases body.evalTallied exec rounds m.touch t with _ | ⟨m' | m', t'⟩
      · rfl
      · exact ih (done + 1) m' t'
      · rfl

/-- **The evaluation that keeps a tally is the evaluation.** -/
theorem eval_eq_evalTallied (exec : α → Machine → Outcome) (rounds : Nat) (c : Code α)
    (m : Machine) (t : Tally) :
    (c.evalTallied exec rounds m t).map Prod.fst = c.eval exec rounds m := by
  induction c generalizing m t with
  | nil => rfl
  | leaf a rest ih =>
    simp only [evalTallied, eval]
    cases exec a m with
    | ended m' => exact ih m' t.leaf
    | exhausted m' => rfl
  | loop body rest ihb ihr =>
    simp only [evalTallied, eval, ← repeatWhile_eq_repeatTallied ihb 0 rounds m t]
    rcases repeatTallied (fun m t => body.evalTallied exec rounds m t) 0 rounds m t with
      _ | ⟨m' | m', t'⟩
    · rfl
    · exact ihr m' t'
    · rfl

theorem exists_evalTallied {o : Outcome} (eval : c.eval exec rounds m = some o) (t : Tally) :
    ∃ t', c.evalTallied exec rounds m t = some (o, t') := by
  rw [← eval_eq_evalTallied exec rounds c m t] at eval
  obtain ⟨⟨o', t'⟩, tallied, rfl⟩ := Option.map_eq_some_iff.1 eval
  exact ⟨t', tallied⟩

/-! ### A tally counts the steps -/

variable (rest) in
/-- A loop that has taken some rounds comes to its end in the steps of its tally, those rounds not
counted again. -/
theorem reaches_of_repeatTallied
    (hbody : ∀ {m m' : Machine} {t t' : Tally},
      body.evalTallied exec rounds m t = some (.ended m', t') →
        ∃ n, body.Reaches exec m n (.settled (.ended m')) ∧ t'.steps = t.steps + n)
    {done bound : Nat}
    (run : repeatTallied (fun m t => body.evalTallied exec rounds m t) done bound m t =
      some (.ended m', t')) :
    ∃ n, t'.steps = t.steps + done + n ∧ ∀ k s, rest.Reaches exec m' k s →
      (loop body rest).Reaches exec m (n + k) s := by
  induction bound generalizing done m t with
  | zero => exact nomatch run
  | succ bound ih =>
    simp only [repeatTallied] at run
    split at run
    · next zero =>
      cases run
      refine ⟨1, t.steps_loop done, fun k s after => ?_⟩
      rw [Nat.add_comm]
      exact .skip zero after
    · next nonzero =>
      split at run
      · next m₁ t₁ round =>
        obtain ⟨n, reaches, counted⟩ := hbody round
        obtain ⟨k, counted', after⟩ := ih run
        refine ⟨n + 1 + k, by omega, fun j s hs => ?_⟩
        rw [Nat.add_assoc]
        exact .again nonzero reaches (after j s hs)
      · next stop => exact absurd run (stop m' t')

/-- **The tally of an evaluation that ends is its steps.** -/
theorem reaches_of_evalTallied (run : c.evalTallied exec rounds m t = some (.ended m', t')) :
    ∃ n, c.Reaches exec m n (.settled (.ended m')) ∧ t'.steps = t.steps + n := by
  induction c generalizing m m' t t' with
  | nil =>
    cases run
    exact ⟨0, .nil m, rfl⟩
  | leaf a rest ih =>
    simp only [evalTallied] at run
    split at run
    · next m₁ executed =>
      obtain ⟨n, reaches, counted⟩ := ih run
      rw [Tally.steps_leaf] at counted
      exact ⟨n + 1, .leaf executed reaches, by omega⟩
    · cases run
  | loop body rest ihb ihr =>
    simp only [evalTallied] at run
    split at run
    · next m₁ t₁ rounds =>
      obtain ⟨n, counted, after⟩ := reaches_of_repeatTallied rest ihb rounds
      obtain ⟨k, reaches, counted'⟩ := ihr run
      exact ⟨n + k, after k _ reaches, by omega⟩
    · next stop => exact absurd run (stop m' t')

/-- `++[-]` executes four commands and takes two rounds of its loop: seven steps. -/
example : (evalTallied (Command.exec .error) 3
    (.leaf .increment <| .leaf .increment <| .loop (.leaf .decrement .nil) .nil) {} {}).map
      (fun e => (e.2, e.2.steps)) = some (⟨4, [2]⟩, 7) := rfl

end Code

/-! ### Walks -/

/-- **A walk implements the evaluation of its program.** Whatever the machine and the policy, the
walk without a limit ends exactly if the evaluation does, and with the same machine; it wants a byte
that is not there exactly if the evaluation does, at the cursor, and leaves the same machine; and
nothing else stops it. On a walk that ends the steps rise by the tally of the evaluation: the
commands executed and, for each time that a loop is reached, its rounds and one. -/
theorem walk_iff_eval (p : Program) (m : Machine) (policy : EndOfInput) (steps : Nat) :
    (∀ m', (∃ fuel w, (Walker.start p m steps).run policy none fuel = some (none, w) ∧
        w.machine = m') ↔
      ∃ rounds, p.eval (Command.exec policy) rounds m = some (.ended m')) ∧
    (∀ cell m', (∃ fuel w, (Walker.start p m steps).run policy none fuel =
        some (some (.inputExhausted cell), w) ∧ w.machine = m') ↔
      ∃ rounds, p.eval (Command.exec policy) rounds m = some (.exhausted m') ∧
        m'.tape.cursor = cell) ∧
    (∀ fuel fault w, (Walker.start p m steps).run policy none fuel = some (some fault, w) →
      ∃ cell, fault = .inputExhausted cell) ∧
    ∀ fuel w, (Walker.start p m steps).run policy none fuel = some (none, w) →
      ∃ rounds tally,
        p.evalTallied (Command.exec policy) rounds m {} = some (.ended w.machine, tally) ∧
          w.steps = steps + tally.steps := by
  refine ⟨fun m' => ⟨?_, ?_⟩, fun cell m' => ⟨?_, ?_⟩, ?_, ?_⟩
  · rintro ⟨fuel, w, run, rfl⟩
    obtain ⟨rounds, n, o, eval, reports⟩ := Walker.eval_of_run run
    cases o with
    | ended x =>
      cases reports
      exact ⟨rounds, eval⟩
    | exhausted x => exact nomatch reports.1
  · rintro ⟨rounds, eval⟩
    obtain ⟨n, fuel, e, run, rfl⟩ := Walker.run_of_eval eval steps
    exact ⟨fuel, _, run, rfl⟩
  · rintro ⟨fuel, w, run, rfl⟩
    obtain ⟨rounds, n, o, eval, reports⟩ := Walker.eval_of_run run
    cases o with
    | ended x => exact nomatch reports
    | exhausted x =>
      obtain ⟨fault, machine, -⟩ := reports
      cases fault
      exact ⟨rounds, machine ▸ eval, machine ▸ rfl⟩
  · rintro ⟨rounds, eval, rfl⟩
    obtain ⟨n, fuel, ⟨fault, w⟩, run, rfl, machine, -⟩ := Walker.run_of_eval eval steps
    exact ⟨fuel, w, run, machine⟩
  · intro fuel fault w run
    obtain ⟨rounds, n, o, eval, reports⟩ := Walker.eval_of_run run
    cases o with
    | ended x => exact nomatch reports
    | exhausted x => exact ⟨_, Option.some.inj reports.1⟩
  · intro fuel w run
    rw [Walker.run_eq] at run
    obtain ⟨n, o, reaches, reports⟩ := Walker.reaches_of_walker_halts (Course.halts_of_run run)
    cases o with
    | exhausted x => exact nomatch reports.1
    | ended x =>
      cases reports
      obtain ⟨rounds, eval⟩ := Code.eval_of_reaches reaches
      obtain ⟨tally, tallied⟩ := Code.exists_evalTallied eval {}
      obtain ⟨k, reaches', counted⟩ := Code.reaches_of_evalTallied tallied
      obtain ⟨rfl, -⟩ := Code.settled_unique reaches reaches'
      refine ⟨rounds, tally, tallied, ?_⟩
      show steps + n = steps + tally.steps
      rw [counted]
      exact congrArg _ (Nat.zero_add n).symm

end TapeLang
