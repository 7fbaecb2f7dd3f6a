import TapeLang.Meaning
import TapeLang.Proofs.Course

/-! The course of an evaluation.

`Code.eval` says how nested code ends, if it does. What happens on the way, and what happens in code
that never ends, is the relation `Code.Reaches`: after a number of steps the evaluation has come to
a stage, which is a machine between two steps or an outcome. A step is one leaf, or one look at a
loop. The two agree on outcomes (`eval_iff_reaches`), and an evaluation that has no outcome after a
number of steps stands between two steps (`reaches_or_over`), so that whatever is shown of stages
covers the runs that never end. A system that follows an evaluation from stage to stage (`Follows`)
therefore halts only where the evaluation is over (`reaches_of_halts`), and what every step keeps
holds on the whole way (`kept_of_reaches`, `Stays`). -/
namespace TapeLang

/-- How far an evaluation has come. -/
inductive Stage where
  /-- It stands between two steps. -/
  | amid (m : Machine)
  | settled (o : Outcome)

/-- Whether the machine of a stage has a property. Nothing is said of one left for want of input. -/
def Stage.Has (P : Machine → Prop) : Stage → Prop
  | amid m => P m
  | settled (.ended m) => P m
  | settled (.exhausted _) => True

/-- Whether what follows the code may begin. -/
def Stage.Finished : Stage → Prop
  | settled (.ended _) => True
  | _ => False

namespace Code
variable {α : Type} {exec : α → Machine → Outcome}

/-- The evaluation of a sequence comes to a stage after a number of steps. A leaf that fails is not
counted as a step. -/
inductive Reaches (exec : α → Machine → Outcome) : Code α → Machine → Nat → Stage → Prop where
  | amid (c : Code α) (m : Machine) : Reaches exec c m 0 (.amid m)
  | nil (m : Machine) : Reaches exec nil m 0 (.settled (.ended m))
  | leaf {a : α} {rest : Code α} {m m' : Machine} {n : Nat} {s : Stage}
      (run : exec a m = .ended m') (after : Reaches exec rest m' n s) :
      Reaches exec (leaf a rest) m (n + 1) s
  | exhausted {a : α} {rest : Code α} {m m' : Machine} (run : exec a m = .exhausted m') :
      Reaches exec (leaf a rest) m 0 (.settled (.exhausted m'))
  /-- The loop is looked at and left. -/
  | skip {body rest : Code α} {m : Machine} {n : Nat} {s : Stage} (zero : m.touch.current = 0)
      (after : Reaches exec rest m.touch n s) : Reaches exec (loop body rest) m (n + 1) s
  /-- The loop is looked at and entered, and its body does not come to an end. -/
  | inside {body rest : Code α} {m : Machine} {n : Nat} {s : Stage} (nonzero : m.touch.current ≠ 0)
      (round : Reaches exec body m.touch n s) (unfinished : ¬ s.Finished) :
      Reaches exec (loop body rest) m (n + 1) s
  /-- The loop is looked at and entered, and after its body looked at again. -/
  | again {body rest : Code α} {m m' : Machine} {n k : Nat} {s : Stage}
      (nonzero : m.touch.current ≠ 0) (round : Reaches exec body m.touch n (.settled (.ended m')))
      (after : Reaches exec (loop body rest) m' k s) : Reaches exec (loop body rest) m (n + 1 + k) s

/-! ### Outcomes -/

/-- A loop whose body has the outcomes it reaches has the outcome it comes to. -/
theorem reaches_loop_of_repeatWhile {body rest : Code α} {rounds : Nat}
    (hbody : ∀ {m : Machine} {o : Outcome}, body.eval exec rounds m = some o →
      ∃ n, body.Reaches exec m n (.settled o))
    (hrest : ∀ {m : Machine} {o : Outcome}, rest.eval exec rounds m = some o →
      ∃ n, rest.Reaches exec m n (.settled o))
    {bound : Nat} {m : Machine} {o : Outcome}
    (run : repeatWhile (fun m => body.eval exec rounds m) bound m = some o) :
    (∀ m', o = .ended m' → ∀ o', rest.eval exec rounds m' = some o' →
      ∃ n, (loop body rest).Reaches exec m n (.settled o')) ∧
    (∀ m', o = .exhausted m' → ∃ n, (loop body rest).Reaches exec m n (.settled o)) := by
  induction bound generalizing m with
  | zero => simp [repeatWhile] at run
  | succ bound ih =>
    simp only [repeatWhile] at run
    split at run
    · next zero =>
      cases run
      refine ⟨fun m' hm o' ho => ?_, fun m' hm => by cases hm⟩
      cases hm
      obtain ⟨n, hn⟩ := hrest ho
      exact ⟨n + 1, .skip zero hn⟩
    · next nonzero =>
      split at run
      · next m₁ hm₁ =>
        obtain ⟨n, hn⟩ := hbody hm₁
        obtain ⟨ended, exhausted⟩ := ih run
        refine ⟨fun m' hm o' ho => ?_, fun m' hm => ?_⟩
        · obtain ⟨k, hk⟩ := ended m' hm o' ho
          exact ⟨n + 1 + k, .again nonzero hn hk⟩
        · obtain ⟨k, hk⟩ := exhausted m' hm
          exact ⟨n + 1 + k, .again nonzero hn hk⟩
      · next hstop =>
        obtain ⟨n, hn⟩ := hbody run
        refine ⟨fun m' hm => absurd (hm ▸ run) (hstop m'), fun m' hm => ?_⟩
        subst hm
        exact ⟨n + 1, .inside nonzero hn id⟩

/-- Code with an outcome comes to it. -/
theorem reaches_of_eval {rounds : Nat} {c : Code α} {m : Machine} {o : Outcome}
    (run : c.eval exec rounds m = some o) : ∃ n, c.Reaches exec m n (.settled o) := by
  induction c generalizing m o with
  | nil =>
    cases run
    exact ⟨0, .nil m⟩
  | leaf a rest ih =>
    simp only [eval] at run
    split at run
    · next m' hm' =>
      obtain ⟨n, hn⟩ := ih run
      exact ⟨n + 1, .leaf hm' hn⟩
    · next m' hm' =>
      cases run
      exact ⟨0, .exhausted hm'⟩
  | loop body rest ihb ihr =>
    simp only [eval] at run
    split at run
    · next m' hm' => exact (reaches_loop_of_repeatWhile ihb ihr hm').1 m' rfl o run
    · next hstop =>
      cases o with
      | ended m' => exact absurd run (hstop m')
      | exhausted m' => exact (reaches_loop_of_repeatWhile ihb ihr run).2 m' rfl

/-- Code that comes to an outcome has it under some bound. -/
theorem eval_of_reaches {c : Code α} {m : Machine} {n : Nat} {o : Outcome}
    (h : c.Reaches exec m n (.settled o)) : ∃ rounds, c.eval exec rounds m = some o := by
  generalize hs : Stage.settled o = s at h
  induction h generalizing o with
  | amid c m => cases hs
  | nil m =>
    cases hs
    exact ⟨0, rfl⟩
  | leaf run _ ih =>
    obtain ⟨rounds, hr⟩ := ih hs
    exact ⟨rounds, by simp only [eval, run, hr]⟩
  | exhausted run =>
    cases hs
    exact ⟨0, by simp only [eval, run]⟩
  | skip zero _ ih =>
    obtain ⟨rounds, hr⟩ := ih hs
    refine ⟨rounds + 1, ?_⟩
    simp only [eval, repeatWhile, if_pos zero]
    exact eval_of_le (Nat.le_succ _) hr
  | @inside body rest m n s nonzero _ unfinished ih =>
    obtain ⟨rounds, hr⟩ := ih hs
    refine ⟨rounds + 1, ?_⟩
    subst hs
    cases o with
    | ended m' => exact absurd trivial unfinished
    | exhausted m' =>
      simp only [eval, repeatWhile, if_neg nonzero, eval_of_le (Nat.le_succ rounds) hr]
  | @again body rest m m' n k s nonzero _ _ ihb ihl =>
    obtain ⟨roundsBody, hb⟩ := ihb rfl
    obtain ⟨roundsLoop, hl⟩ := ihl hs
    have hb := eval_of_le (Nat.le_max_left roundsBody roundsLoop) hb
    have hl := eval_of_le (Nat.le_max_right roundsBody roundsLoop) hl
    refine ⟨max roundsBody roundsLoop + 1, ?_⟩
    have hb' := eval_of_le (Nat.le_succ _) hb
    simp only [eval] at hl ⊢
    simp only [repeatWhile, if_neg nonzero, hb']
    split at hl
    · next m₁ hm₁ =>
      rw [repeatWhile_of_le (fun _ _ => eval_of_le (Nat.le_succ _)) (Nat.le_refl _) hm₁]
      exact eval_of_le (Nat.le_succ _) hl
    · next hstop =>
      rw [repeatWhile_of_le (fun _ _ => eval_of_le (Nat.le_succ _)) (Nat.le_refl _) hl]
      cases o with
      | ended m₁ => exact absurd hl (hstop m₁)
      | exhausted m₁ => rfl

/-- **Code has an outcome under some bound exactly if its evaluation comes to it.** -/
theorem eval_iff_reaches {c : Code α} {m : Machine} {o : Outcome} :
    (∃ rounds, c.eval exec rounds m = some o) ↔ ∃ n, c.Reaches exec m n (.settled o) :=
  ⟨fun ⟨_, h⟩ => reaches_of_eval h, fun ⟨_, h⟩ => eval_of_reaches h⟩

/-- An evaluation comes to one outcome, after one number of steps. -/
theorem settled_unique {c : Code α} {m : Machine} {n n' : Nat} {o o' : Outcome}
    (h : c.Reaches exec m n (.settled o)) (h' : c.Reaches exec m n' (.settled o')) :
    n = n' ∧ o = o' := by
  generalize hs : Stage.settled o = s at h
  induction h generalizing n' o o' with
  | amid c m => cases hs
  | nil m =>
    cases hs
    cases h'
    exact ⟨rfl, rfl⟩
  | leaf run _ ih =>
    cases h' with
    | exhausted run' => exact nomatch run.symm.trans run'
    | leaf run' after' =>
      cases run.symm.trans run'
      obtain ⟨rfl, same⟩ := ih after' hs
      exact ⟨rfl, same⟩
  | exhausted run =>
    cases hs
    cases h' with
    | exhausted run' =>
      cases run.symm.trans run'
      exact ⟨rfl, rfl⟩
    | leaf run' after' => exact nomatch run.symm.trans run'
  | skip zero _ ih =>
    cases h' with
    | skip _ after' =>
      obtain ⟨rfl, same⟩ := ih after' hs
      exact ⟨rfl, same⟩
    | inside nonzero => exact absurd zero nonzero
    | again nonzero => exact absurd zero nonzero
  | inside nonzero _ unfinished ih =>
    subst hs
    cases h' with
    | skip zero => exact absurd zero nonzero
    | inside _ round' =>
      obtain ⟨rfl, same⟩ := ih round' rfl
      exact ⟨rfl, same⟩
    | again _ round' =>
      obtain ⟨-, rfl⟩ := ih round' rfl
      exact absurd trivial unfinished
  | again nonzero _ _ ihb ihl =>
    cases h' with
    | skip zero => exact absurd zero nonzero
    | inside _ round' unfinished' =>
      obtain ⟨-, rfl⟩ := ihb round' rfl
      exact absurd trivial unfinished'
    | again _ round' after' =>
      obtain ⟨rfl, same⟩ := ihb round' rfl
      cases same
      obtain ⟨rfl, same⟩ := ihl after' hs
      exact ⟨rfl, same⟩

/-- After any number of steps the evaluation stands between two steps, unless it is over. -/
theorem reaches_or_over (exec : α → Machine → Outcome) (n : Nat) (c : Code α) (m : Machine) :
    (∃ x, c.Reaches exec m n (.amid x)) ∨ ∃ k ≤ n, ∃ o, c.Reaches exec m k (.settled o) := by
  induction n using Nat.strongRecOn generalizing c m with
  | ind n ih =>
    cases n with
    | zero => exact .inl ⟨m, .amid c m⟩
    | succ n =>
      cases c with
      | nil => exact .inr ⟨0, Nat.zero_le _, .ended m, .nil m⟩
      | leaf a rest =>
        cases ha : exec a m with
        | exhausted m' => exact .inr ⟨0, Nat.zero_le _, .exhausted m', .exhausted ha⟩
        | ended m' =>
          rcases ih n (Nat.lt_succ_self n) rest m' with ⟨x, hx⟩ | ⟨k, hk, o, ho⟩
          · exact .inl ⟨x, .leaf ha hx⟩
          · exact .inr ⟨k + 1, Nat.succ_le_succ hk, o, .leaf ha ho⟩
      | loop body rest =>
        by_cases zero : m.touch.current = 0
        · rcases ih n (Nat.lt_succ_self n) rest m.touch with ⟨x, hx⟩ | ⟨k, hk, o, ho⟩
          · exact .inl ⟨x, .skip zero hx⟩
          · exact .inr ⟨k + 1, Nat.succ_le_succ hk, o, .skip zero ho⟩
        · rcases ih n (Nat.lt_succ_self n) body m.touch with ⟨x, hx⟩ | ⟨k, hk, o, ho⟩
          · exact .inl ⟨x, .inside zero hx id⟩
          · cases o with
            | exhausted m' => exact .inr ⟨k + 1, Nat.succ_le_succ hk, _, .inside zero ho id⟩
            | ended m' =>
              rcases ih (n - k) (by omega) (loop body rest) m' with ⟨x, hx⟩ | ⟨j, hj, o, hl⟩
              · have sum : k + 1 + (n - k) = n + 1 := by omega
                exact .inl ⟨x, sum ▸ .again zero ho hx⟩
              · exact .inr ⟨k + 1 + j, by omega, o, .again zero ho hl⟩

/-! ### Systems that follow an evaluation -/

/-- What a system does that follows an evaluation to a stage: it passes through a state that goes
with the machine, it comes to the given state behind the code, or it stops. -/
def Follows {σ ε : Type} (step : σ → σ ⊕ ε) (amid : Machine → σ → Prop)
    (failed : Machine → ε → Prop) (behind : Machine → σ) (start : σ) : Stage → Prop
  | .amid m => ∃ s, Course.Leads step start s ∧ amid m s
  | .settled (.ended m) => Course.Leads step start (behind m)
  | .settled (.exhausted m) => ∃ e, Course.Halts step start e ∧ failed m e

section
variable {σ ε : Type} {step : σ → σ ⊕ ε} {amid : Machine → σ → Prop}
  {failed : Machine → ε → Prop} {behind other : Machine → σ} {start s : σ} {stage : Stage}

theorem Follows.before (leads : Course.Leads step start s)
    (h : Follows step amid failed behind s stage) :
    Follows step amid failed behind start stage := by
  match stage with
  | .amid m =>
    obtain ⟨s', after, here⟩ := h
    exact ⟨s', leads.trans after, here⟩
  | .settled (.ended m) => exact leads.trans h
  | .settled (.exhausted m) =>
    obtain ⟨e, halts, here⟩ := h
    exact ⟨e, halts.before leads, here⟩

/-- What stands behind the code matters only once the evaluation has ended. -/
theorem Follows.unfinished (unfinished : ¬ stage.Finished)
    (h : Follows step amid failed behind s stage) : Follows step amid failed other s stage := by
  match stage with
  | .amid m => exact h
  | .settled (.ended m) => exact absurd trivial unfinished
  | .settled (.exhausted m) => exact h

end

/-- What a system stops with after an outcome. -/
def Reports {ε : Type} (failed : Machine → ε → Prop) (result : Machine → ε) : Outcome → ε → Prop
  | .ended m, e => e = result m
  | .exhausted m, e => failed m e

theorem Reports.imp {ε : Type} {failed failed' : Machine → ε → Prop} {result : Machine → ε}
    {o : Outcome} {e : ε} (h : Reports failed result o e)
    (weaker : ∀ m e, failed m e → failed' m e) : Reports failed' result o e := by
  cases o with
  | ended m => exact h
  | exhausted m => exact weaker m e h

section
variable {σ ε : Type} {step : σ → σ ⊕ ε} {start : σ} {c : Code α} {m : Machine}

theorem Follows.halts {amid : Machine → σ → Prop} {failed : Machine → ε → Prop}
    {behind : Machine → σ} {result : Machine → ε} {o : Outcome}
    (h : Follows step amid failed behind start (.settled o))
    (stops : ∀ m, step (behind m) = .inr (result m)) :
    ∃ e, Course.Halts step start e ∧ Reports failed result o e := by
  cases o with
  | ended m =>
    have leads : Course.Leads step start (behind m) := h
    exact ⟨result m, .before leads (.stop (stops m)), rfl⟩
  | exhausted m => exact h

/-- **A system that follows an evaluation halts only with what the evaluation comes to.** It is
enough that it has counted every step by then and stops behind the code. -/
theorem reaches_of_halts {amid : Nat → Machine → σ → Prop} {failed : Nat → Machine → ε → Prop}
    {behind : Nat → Machine → σ} {result : Nat → Machine → ε} (count : σ → Nat)
    (follows : ∀ n s, c.Reaches exec m n s →
      Follows step (amid n) (failed n) (behind n) start s)
    (counted : ∀ n x s, amid n x s → n ≤ count s)
    (stops : ∀ n m, step (behind n m) = .inr (result n m))
    {e : ε} (halts : Course.Halts step start e) :
    ∃ n o, c.Reaches exec m n (.settled o) ∧ Reports (failed n) (result n) o e := by
  obtain ⟨bound, hbound⟩ := halts.bounded count
  rcases reaches_or_over exec (bound + 1) c m with ⟨x, hx⟩ | ⟨n, -, o, ho⟩
  · -- The system would have counted further than it does before it stops.
    obtain ⟨s, leads, here⟩ := follows _ _ hx
    have := hbound s leads
    have := counted _ _ _ here
    omega
  · obtain ⟨e', halts', reports⟩ := (follows n _ ho).halts (stops n)
    cases halts.unique halts'
    exact ⟨n, o, ho, reports⟩

/-- **Every state of a system that follows an evaluation has a stage ahead of it**, to which the
system goes on from there. -/
theorem stage_ahead {amid : Nat → Machine → σ → Prop} {failed : Nat → Machine → ε → Prop}
    {behind : Nat → Machine → σ} {result : Nat → Machine → ε} (count : σ → Nat)
    (follows : ∀ n s, c.Reaches exec m n s →
      Follows step (amid n) (failed n) (behind n) start s)
    (counted : ∀ n x s, amid n x s → n ≤ count s)
    (stops : ∀ n m, step (behind n m) = .inr (result n m))
    (rises : ∀ s s', step s = .inl s' → count s ≤ count s')
    {s : σ} (leads : Course.Leads step start s) :
    ∃ n stage, c.Reaches exec m n stage ∧
      Follows step (amid n) (failed n) (behind n) s stage := by
  have risen : ∀ {s s'}, Course.Leads step s s' → count s ≤ count s' := by
    intro s s' leads
    induction leads with
    | refl => exact Nat.le_refl _
    | tail _ goes ih => exact Nat.le_trans ih (rises _ _ goes)
  rcases reaches_or_over exec (count s + 1) c m with ⟨x, hx⟩ | ⟨n, -, o, ho⟩
  · refine ⟨count s + 1, .amid x, hx, ?_⟩
    obtain ⟨s', there, here⟩ := follows _ _ hx
    rcases leads.total_of_right_unique Course.goes_unique there with ahead | behind
    · exact ⟨s', ahead, here⟩
    · -- The system has counted further than the state that it has come from.
      have := risen behind
      have := counted _ _ _ here
      omega
  · refine ⟨n, .settled o, ho, ?_⟩
    have there := follows _ _ ho
    cases o with
    | ended x =>
      have there : Course.Leads step start (behind n x) := there
      rcases leads.total_of_right_unique Course.goes_unique there with ahead | back
      · exact ahead
      · cases Course.eq_of_leads_of_stop (stops n x) back
        exact .refl
    | exhausted x =>
      obtain ⟨e, halts, here⟩ := there
      exact ⟨e, halts.after leads, here⟩

end

section
variable {c : Code α} {m : Machine} {n : Nat}

/-- Where an evaluation ends, it stands after its last step. -/
theorem amid_of_ended {x : Machine} (h : c.Reaches exec m n (.settled (.ended x))) :
    c.Reaches exec m n (.amid x) := by
  generalize hs : Stage.settled (.ended x) = s at h
  induction h with
  | amid c m => cases hs
  | nil m =>
    cases hs
    exact .amid _ _
  | leaf run _ ih => exact .leaf run (ih hs)
  | exhausted run => cases hs
  | skip zero _ ih => exact .skip zero (ih hs)
  | inside nonzero _ unfinished =>
    subst hs
    exact absurd trivial unfinished
  | again nonzero round _ _ ih => exact .again nonzero round (ih hs)

/-- Where an evaluation fails, it stands before a leaf that fails. -/
theorem amid_of_exhausted {x : Machine} (h : c.Reaches exec m n (.settled (.exhausted x))) :
    ∃ y a, c.Reaches exec m n (.amid y) ∧ exec a y = .exhausted x := by
  generalize hs : Stage.settled (.exhausted x) = s at h
  induction h with
  | amid c m => cases hs
  | nil m => cases hs
  | leaf run _ ih =>
    obtain ⟨y, a, hy, fails⟩ := ih hs
    exact ⟨y, a, .leaf run hy, fails⟩
  | exhausted run =>
    cases hs
    exact ⟨_, _, .amid _ _, run⟩
  | skip zero _ ih =>
    obtain ⟨y, a, hy, fails⟩ := ih hs
    exact ⟨y, a, .skip zero hy, fails⟩
  | inside nonzero _ _ ih =>
    obtain ⟨y, a, hy, fails⟩ := ih hs
    exact ⟨y, a, .inside nonzero hy id, fails⟩
  | again nonzero round _ _ ih =>
    obtain ⟨y, a, hy, fails⟩ := ih hs
    exact ⟨y, a, .again nonzero round hy, fails⟩

end

/-! ### Properties of every machine on the way -/

theorem all_true (c : Code α) : c.all (fun _ => true) = true := by
  induction c with
  | nil => rfl
  | leaf a rest ih => exact ih
  | loop body rest ihb ihr => simp only [all, ihb, ihr, Bool.and_self]

/-- Every machine that the evaluation passes through has a property. -/
def Stays (exec : α → Machine → Outcome) (P : Machine → Prop) (c : Code α) (m : Machine) : Prop :=
  ∀ n x, c.Reaches exec m n (.amid x) → P x

/-- Every machine that the evaluation passes through in a number of steps has a property. -/
def StaysFor (exec : α → Machine → Outcome) (P : Machine → Prop) (n : Nat) (c : Code α)
    (m : Machine) : Prop :=
  ∀ k ≤ n, ∀ x, c.Reaches exec m k (.amid x) → P x

variable {P : Machine → Prop} {body rest : Code α} {m : Machine}

theorem Stays.here {c : Code α} (h : c.Stays exec P m) : P m := h 0 m (.amid c m)

theorem stays_nil : (nil : Code α).Stays exec P m ↔ P m := by
  refine ⟨Stays.here, fun h n x hx => ?_⟩
  cases hx
  exact h

theorem stays_leaf {a : α} : (leaf a rest).Stays exec P m ↔
    P m ∧ ∀ m', exec a m = .ended m' → rest.Stays exec P m' := by
  constructor
  · intro h
    exact ⟨h.here, fun m' run n x hx => h (n + 1) x (.leaf run hx)⟩
  · rintro ⟨here, after⟩ n x hx
    cases hx with
    | amid => exact here
    | leaf run hx => exact after _ run _ x hx

theorem Stays.staysFor {c : Code α} (h : c.Stays exec P m) (n : Nat) : c.StaysFor exec P n m :=
  fun k _ x hx => h k x hx

section
variable {m' : Machine} {n k : Nat}

theorem StaysFor.here {c : Code α} (h : c.StaysFor exec P n m) : P m :=
  h 0 (Nat.zero_le n) m (.amid c m)

theorem StaysFor.leaf {a : α} (h : (leaf a rest).StaysFor exec P (n + 1) m)
    (run : exec a m = .ended m') : rest.StaysFor exec P n m' :=
  fun k le x hx => h (k + 1) (by omega) x (.leaf run hx)

theorem StaysFor.skip (h : (loop body rest).StaysFor exec P (n + 1) m)
    (zero : m.touch.current = 0) : rest.StaysFor exec P n m.touch :=
  fun k le x hx => h (k + 1) (by omega) x (.skip zero hx)

theorem StaysFor.inside (h : (loop body rest).StaysFor exec P (n + 1) m)
    (nonzero : m.touch.current ≠ 0) : body.StaysFor exec P n m.touch :=
  fun k le x hx => h (k + 1) (by omega) x (.inside nonzero hx id)

theorem StaysFor.again (h : (loop body rest).StaysFor exec P (n + 1 + k) m)
    (nonzero : m.touch.current ≠ 0)
    (round : body.Reaches exec m.touch n (.settled (.ended m'))) :
    (loop body rest).StaysFor exec P k m' :=
  fun j le x hx => h (n + 1 + j) (by omega) x (.again nonzero round hx)

theorem StaysFor.mono {c : Code α} (h : c.StaysFor exec P n m) (le : k ≤ n) :
    c.StaysFor exec P k m :=
  fun j hj x hx => h j (by omega) x hx

end

/-- What every step keeps holds of every machine on the way, and of the one left at the end. -/
theorem kept_of_reaches {test : α → Bool}
    (leaf : ∀ a, test a = true → ∀ m m', P m → exec a m = .ended m' → P m')
    (touch : ∀ m, P m → P m.touch) {c : Code α} {n : Nat} {s : Stage} (tested : c.all test = true)
    (start : P m) (h : c.Reaches exec m n s) : s.Has P := by
  induction h with
  | amid c m => exact start
  | nil m => exact start
  | leaf run _ ih =>
    simp only [all, Bool.and_eq_true] at tested
    exact ih tested.2 (leaf _ tested.1 _ _ start run)
  | exhausted run => trivial
  | skip zero _ ih =>
    simp only [all, Bool.and_eq_true] at tested
    exact ih tested.2 (touch _ start)
  | inside nonzero _ unfinished ih =>
    simp only [all, Bool.and_eq_true] at tested
    exact ih tested.1 (touch _ start)
  | again nonzero _ _ ihb ihl =>
    have bodyTested := tested
    simp only [all, Bool.and_eq_true] at bodyTested
    exact ihl tested (ihb bodyTested.1 (touch _ start))

theorem stays_of_kept {test : α → Bool}
    (leaf : ∀ a, test a = true → ∀ m m', P m → exec a m = .ended m' → P m')
    (touch : ∀ m, P m → P m.touch) {c : Code α} (tested : c.all test = true) (start : P m) :
    c.Stays exec P m :=
  fun _ _ h => kept_of_reaches leaf touch tested start h

end Code

end TapeLang
