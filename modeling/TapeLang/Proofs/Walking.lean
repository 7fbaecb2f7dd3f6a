import TapeLang.Program.Walker
import TapeLang.Proofs.Evaluation

/-! Walking through a program is evaluating it.

A walker keeps a stack of frames in place of nested evaluation. With a sequence on top of some
frames it does what the evaluation of the sequence does, step by step, and is back at these frames
when the sequence has ended (`follows`), however deep the loops are nested. So it stops without a
fault where the evaluation ends, with the same machine, and for want of input where the evaluation
does (`walker_halts_of_reaches`, `reaches_of_walker_halts`). All that a transition can do is said
once (`goesOn_of_move`, `stops_of_move`). -/
namespace TapeLang.Walker
open Course (Leads Halts)

/-- One transition, with what it stops with as one result. -/
def move (policy : EndOfInput) (limit : Option Int) (w : Walker) :
    Walker ⊕ (Option RunFault × Walker) :=
  match w.step policy limit with
  | .running w => .inl w
  | .stopped fault w => .inr (fault, w)

theorem run_eq (policy : EndOfInput) (limit : Option Int) (fuel : Nat) (w : Walker) :
    w.run policy limit fuel = Course.run (move policy limit) fuel w := by
  induction fuel generalizing w with
  | zero => rfl
  | succ fuel ih =>
    rw [run, Course.run, move]
    cases w.step policy limit with
    | running w => exact ih w
    | stopped fault w => rfl

variable {policy : EndOfInput}

/-- What a walker does that follows an evaluation to a stage: the given frames are left when the
evaluation has ended, and the steps are those counted by then. -/
def Follows (policy : EndOfInput) (w : Walker) (frames : List Program) (steps : Nat) :
    Stage → Prop :=
  Code.Follows (move policy none) (fun m w => w.machine = m ∧ w.steps = steps)
    (fun m e => e.1 = some (.inputExhausted m.tape.cursor) ∧ e.2.machine = m ∧
      e.2.steps = steps + 1)
    (fun m => ⟨frames, m, steps⟩) w

theorem move_leaf {c : Command} {m m' : Machine} (run : c.exec policy m = .ended m')
    (rest : Program) (frames : List Program) (steps : Nat) :
    move policy none ⟨.leaf c rest :: frames, m, steps⟩ = .inl ⟨rest :: frames, m', steps + 1⟩ := by
  simp only [move, step, exceeded?, Option.filter, run]

theorem move_exhausted {c : Command} {m m' : Machine} (run : c.exec policy m = .exhausted m')
    (rest : Program) (frames : List Program) (steps : Nat) :
    move policy none ⟨.leaf c rest :: frames, m, steps⟩ =
      .inr (some (.inputExhausted m'.tape.cursor), ⟨.leaf c rest :: frames, m', steps + 1⟩) := by
  simp only [move, step, exceeded?, Option.filter, run]

theorem move_skip {m : Machine} (zero : m.touch.current = 0) (body rest : Program)
    (frames : List Program) (steps : Nat) :
    move policy none ⟨.loop body rest :: frames, m, steps⟩ =
      .inl ⟨rest :: frames, m.touch, steps + 1⟩ := by
  simp only [move, step, exceeded?, Option.filter, if_pos zero]

theorem move_enter {m : Machine} (nonzero : m.touch.current ≠ 0) (body rest : Program)
    (frames : List Program) (steps : Nat) :
    move policy none ⟨.loop body rest :: frames, m, steps⟩ =
      .inl ⟨body :: .loop body rest :: frames, m.touch, steps + 1⟩ := by
  simp only [move, step, exceeded?, Option.filter, if_neg nonzero]

/-- How a transition without a limit goes on: a sequence that is done is left, a command is
executed, or a loop is passed by or entered. -/
inductive GoesOn (policy : EndOfInput) : Walker → Walker → Prop
  | leave (frames : List Program) (m : Machine) (steps : Nat) :
      GoesOn policy ⟨.nil :: frames, m, steps⟩ ⟨frames, m, steps⟩
  | leaf {c : Command} {m m' : Machine} (run : c.exec policy m = .ended m') (rest : Program)
      (frames : List Program) (steps : Nat) :
      GoesOn policy ⟨.leaf c rest :: frames, m, steps⟩ ⟨rest :: frames, m', steps + 1⟩
  | skip {m : Machine} (zero : m.touch.current = 0) (body rest : Program) (frames : List Program)
      (steps : Nat) :
      GoesOn policy ⟨.loop body rest :: frames, m, steps⟩ ⟨rest :: frames, m.touch, steps + 1⟩
  | enter {m : Machine} (nonzero : m.touch.current ≠ 0) (body rest : Program)
      (frames : List Program) (steps : Nat) :
      GoesOn policy ⟨.loop body rest :: frames, m, steps⟩
        ⟨body :: .loop body rest :: frames, m.touch, steps + 1⟩

theorem goesOn_of_move {w w' : Walker} (h : move policy none w = .inl w') :
    GoesOn policy w w' := by
  match w with
  | ⟨[], m, steps⟩ => cases h
  | ⟨.nil :: frames, m, steps⟩ =>
    cases h
    exact .leave frames m steps
  | ⟨.leaf c rest :: frames, m, steps⟩ =>
    cases run : c.exec policy m with
    | ended m' =>
      cases (move_leaf run rest frames steps).symm.trans h
      exact .leaf run rest frames steps
    | exhausted m' => cases (move_exhausted run rest frames steps).symm.trans h
  | ⟨.loop body rest :: frames, m, steps⟩ =>
    by_cases zero : m.touch.current = 0
    · cases (move_skip zero body rest frames steps).symm.trans h
      exact .skip zero body rest frames steps
    · cases (move_enter zero body rest frames steps).symm.trans h
      exact .enter zero body rest frames steps

/-- A transition without a limit stops at the end of the walk, or for want of a byte. -/
theorem stops_of_move {w : Walker} {e : Option RunFault × Walker}
    (h : move policy none w = .inr e) :
    e = (none, w) ∨ ∃ c m', Command.exec policy c w.machine = .exhausted m' ∧
      e = (some (.inputExhausted m'.tape.cursor), ⟨w.frames, m', w.steps + 1⟩) := by
  match w with
  | ⟨[], m, steps⟩ =>
    cases h
    exact .inl rfl
  | ⟨.nil :: frames, m, steps⟩ => cases h
  | ⟨.leaf c rest :: frames, m, steps⟩ =>
    cases run : c.exec policy m with
    | ended m' => cases (move_leaf run rest frames steps).symm.trans h
    | exhausted m' =>
      cases (move_exhausted run rest frames steps).symm.trans h
      exact .inr ⟨c, m', run, rfl⟩
  | ⟨.loop body rest :: frames, m, steps⟩ =>
    by_cases zero : m.touch.current = 0
    · cases (move_skip zero body rest frames steps).symm.trans h
    · cases (move_enter zero body rest frames steps).symm.trans h

/-- With a sequence on top, a walker does what the evaluation of the sequence does. -/
theorem follows {p : Program} {m : Machine} {n : Nat} {s : Stage}
    (h : p.Reaches (Command.exec policy) m n s) (frames : List Program) (steps : Nat) :
    Follows policy ⟨p :: frames, m, steps⟩ frames (steps + n) s := by
  induction h generalizing frames steps with
  | amid c m => exact ⟨_, .refl, rfl, rfl⟩
  | nil m => exact .single rfl
  | @leaf c rest m m' n s run _ ih =>
    have next := ih frames (steps + 1)
    rw [Nat.add_right_comm] at next
    exact next.before (.single (move_leaf run rest frames steps))
  | @exhausted c rest m m' run =>
    exact ⟨_, .stop (move_exhausted run rest frames steps), rfl, rfl, rfl⟩
  | @skip body rest m n s zero _ ih =>
    have next := ih frames (steps + 1)
    rw [Nat.add_right_comm] at next
    exact next.before (.single (move_skip zero body rest frames steps))
  | @inside body rest m n s nonzero _ unfinished ih =>
    have next := ih (.loop body rest :: frames) (steps + 1)
    rw [Nat.add_right_comm] at next
    exact (next.unfinished unfinished).before (.single (move_enter nonzero body rest frames steps))
  | @again body rest m m' n k s nonzero _ _ ihb ihl =>
    have round := ihb (.loop body rest :: frames) (steps + 1)
    have next := ihl frames (steps + 1 + n)
    rw [show steps + 1 + n + k = steps + (n + 1 + k) by omega] at next
    exact (next.before round).before (.single (move_enter nonzero body rest frames steps))

/-- What a walker stops with after an outcome that took a number of steps. -/
def Reports (steps n : Nat) : Outcome → Option RunFault × Walker → Prop :=
  Code.Reports
    (fun m e => e.1 = some (.inputExhausted m.tape.cursor) ∧ e.2.machine = m ∧
      e.2.steps = steps + n + 1)
    (fun m => (none, ⟨[], m, steps + n⟩))

theorem walker_halts_of_reaches {p : Program} {m : Machine} {n : Nat} {o : Outcome}
    (h : p.Reaches (Command.exec policy) m n (.settled o)) (steps : Nat) :
    ∃ e, Halts (move policy none) (start p m steps) e ∧ Reports steps n o e :=
  (follows h [] steps).halts fun _ => rfl

/-- **A walker stops only with what the evaluation of the program comes to.** -/
theorem reaches_of_walker_halts {p : Program} {m : Machine} {steps : Nat}
    {e : Option RunFault × Walker} (halts : Halts (move policy none) (start p m steps) e) :
    ∃ n o, p.Reaches (Command.exec policy) m n (.settled o) ∧ Reports steps n o e :=
  Code.reaches_of_halts Walker.steps (fun _ _ h => follows h [] steps)
    (fun n _ _ here => here.2 ▸ Nat.le_add_left n steps) (fun _ _ => rfl) halts

theorem run_of_eval {p : Program} {m : Machine} {rounds : Nat} {o : Outcome}
    (eval : p.eval (Command.exec policy) rounds m = some o) (steps : Nat) :
    ∃ n fuel e, (start p m steps).run policy none fuel = some e ∧ Reports steps n o e := by
  obtain ⟨n, reaches⟩ := Code.reaches_of_eval eval
  obtain ⟨e, halts, reports⟩ := walker_halts_of_reaches reaches steps
  obtain ⟨fuel, run⟩ := Course.run_of_halts halts
  exact ⟨n, fuel, e, (run_eq policy none fuel _).trans run, reports⟩

theorem eval_of_run {p : Program} {m : Machine} {steps fuel : Nat}
    {e : Option RunFault × Walker} (run : (start p m steps).run policy none fuel = some e) :
    ∃ rounds n o, p.eval (Command.exec policy) rounds m = some o ∧ Reports steps n o e := by
  rw [run_eq] at run
  obtain ⟨n, o, reaches, reports⟩ := reaches_of_walker_halts (Course.halts_of_run run)
  obtain ⟨rounds, eval⟩ := Code.eval_of_reaches reaches
  exact ⟨rounds, n, o, eval, reports⟩

/-! ### Limits -/

/-- A step that the limit does not stop is the step without a limit. -/
theorem step_limit (policy : EndOfInput) (limit : Option Int) (w : Walker) :
    (w.step policy limit = w.step policy none) ∨
      ∃ l w', w.step policy limit = .stopped (some (.stepLimit l)) w' := by
  have free : ∀ steps, exceeded? none steps = none := fun _ => rfl
  match w with
  | ⟨[], m, steps⟩ => exact .inl rfl
  | ⟨.nil :: frames, m, steps⟩ => exact .inl rfl
  | ⟨.leaf c rest :: frames, m, steps⟩ =>
    cases h : exceeded? limit (steps + 1) with
    | none => exact .inl (by simp only [step, h, free])
    | some l => exact .inr ⟨l, ⟨.leaf c rest :: frames, m, steps + 1⟩, by simp only [step, h]⟩
  | ⟨.loop body rest :: frames, m, steps⟩ =>
    cases h : exceeded? limit (steps + 1) with
    | none => exact .inl (by simp only [step, h, free])
    | some l => exact .inr ⟨l, ⟨.loop body rest :: frames, m, steps + 1⟩, by simp only [step, h]⟩

/-- A walk that ends within a limit ends without one. -/
theorem run_unlimited {limit : Option Int} {fuel : Nat} {w w' : Walker}
    (h : w.run policy limit fuel = some (none, w')) : w.run policy none fuel = some (none, w') := by
  induction fuel generalizing w with
  | zero => exact nomatch h
  | succ fuel ih =>
    simp only [run] at h ⊢
    rcases step_limit policy limit w with same | ⟨l, _, exceeded⟩
    · rw [← same]
      cases hs : w.step policy limit with
      | running next =>
        rw [hs] at h
        exact ih h
      | stopped fault last =>
        rw [hs] at h
        exact h
    · rw [exceeded] at h
      cases h

end TapeLang.Walker
