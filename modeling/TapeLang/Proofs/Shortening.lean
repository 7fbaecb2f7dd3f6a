import TapeLang.Proofs.Evaluation
import TapeLang.Code.Walk
import TapeLang.Proofs.Storage

/-! Shortening code.

Code shortens other code if every stage that the other comes to is matched by one that it comes to
itself in no more steps, and every stage that it comes to is one of the other. Outcomes are matched
by themselves, so code and what shortens it end alike and run forever alike; between two steps what
has been read and written so far is matched. Shortening a body, or what follows, shortens the
whole (`Shortens.leaf`, `Shortens.loop`), so a rewriting is justified where it happens. -/
namespace TapeLang

/-- A stage of shorter code stands for a stage: outcomes are the same, and between two steps as much
has been read and written. -/
def Stage.Matches : Stage → Stage → Prop
  | amid m, amid m' => m.SameStreams m'
  | settled o, settled o' => o' = o
  | _, _ => False

theorem Stage.Matches.refl (s : Stage) : s.Matches s := by
  cases s with
  | amid m => exact ⟨rfl, rfl⟩
  | settled o => rfl

theorem Stage.Matches.trans {s t u : Stage} (h : s.Matches t) (h' : t.Matches u) :
    s.Matches u := by
  cases s <;> cases t <;> cases u <;> simp only [Matches] at h h' ⊢
  · exact ⟨h'.1.trans h.1, h'.2.trans h.2⟩
  · exact h'.trans h

theorem Stage.Matches.finished {s s' : Stage} (h : s.Matches s') : s'.Finished ↔ s.Finished := by
  cases s <;> cases s' <;> simp only [Matches] at h
  · exact Iff.rfl
  · rw [h]

namespace Code
variable {α : Type}

/-- The second sequence shortens the first one. -/
structure Shortens (exec : α → Machine → Outcome) (c d : Code α) : Prop where
  forward : ∀ {m n s}, c.Reaches exec m n s →
    ∃ k ≤ n, ∃ s', d.Reaches exec m k s' ∧ s.Matches s'
  backward : ∀ {m n s}, d.Reaches exec m n s → ∃ k, n ≤ k ∧ c.Reaches exec m k s

variable {exec : α → Machine → Outcome} {a b e : α} {c d rest rest' body body' : Code α}

theorem Shortens.refl (exec : α → Machine → Outcome) (c : Code α) : Shortens exec c c where
  forward := fun {_ n s} h => ⟨n, Nat.le_refl n, s, h, .refl s⟩
  backward := fun {_ n _} h => ⟨n, Nat.le_refl n, h⟩

theorem Shortens.trans {k : Code α} (h : Shortens exec c d) (h' : Shortens exec d k) :
    Shortens exec c k where
  forward := by
    intro m n s hs
    obtain ⟨n₁, le₁, s₁, hs₁, match₁⟩ := h.forward hs
    obtain ⟨n₂, le₂, s₂, hs₂, match₂⟩ := h'.forward hs₁
    exact ⟨n₂, Nat.le_trans le₂ le₁, s₂, hs₂, match₁.trans match₂⟩
  backward := by
    intro m n s hs
    obtain ⟨n₁, le₁, hs₁⟩ := h'.backward hs
    obtain ⟨n₂, le₂, hs₂⟩ := h.backward hs₁
    exact ⟨n₂, Nat.le_trans le₁ le₂, hs₂⟩

/-! ### Inside other code -/

theorem Shortens.leaf (a : α) (h : Shortens exec rest rest') :
    Shortens exec (leaf a rest) (leaf a rest') where
  forward := by
    intro m n s hs
    cases hs with
    | amid => exact ⟨0, Nat.le_refl 0, _, .amid _ m, .refl _⟩
    | exhausted run => exact ⟨0, Nat.le_refl 0, _, .exhausted run, .refl _⟩
    | leaf run after =>
      obtain ⟨k, le, s', hs', hm⟩ := h.forward after
      exact ⟨k + 1, Nat.succ_le_succ le, s', .leaf run hs', hm⟩
  backward := by
    intro m n s hs
    cases hs with
    | amid => exact ⟨0, Nat.le_refl 0, .amid _ m⟩
    | exhausted run => exact ⟨0, Nat.le_refl 0, .exhausted run⟩
    | leaf run after =>
      obtain ⟨k, le, hk⟩ := h.backward after
      exact ⟨k + 1, Nat.succ_le_succ le, .leaf run hk⟩

theorem Shortens.loop (hb : Shortens exec body body') (hr : Shortens exec rest rest') :
    Shortens exec (loop body rest) (loop body' rest') where
  forward := by
    intro m n s hs
    generalize hc : Code.loop body rest = c at hs
    induction hs with
    | amid => exact ⟨0, Nat.le_refl 0, _, .amid _ _, .refl _⟩
    | nil => cases hc
    | leaf => cases hc
    | exhausted => cases hc
    | skip zero after =>
      cases hc
      obtain ⟨k, le, s', hs', hm⟩ := hr.forward after
      exact ⟨k + 1, Nat.succ_le_succ le, s', .skip zero hs', hm⟩
    | inside nonzero round unfinished =>
      cases hc
      obtain ⟨k, le, s', hs', hm⟩ := hb.forward round
      exact ⟨k + 1, Nat.succ_le_succ le, s', .inside nonzero hs' (mt hm.finished.1 unfinished), hm⟩
    | again nonzero round _ _ ih =>
      cases hc
      obtain ⟨k, le, s', hs', hm⟩ := ih rfl
      obtain ⟨j, le', s₁, hs₁, hm₁⟩ := hb.forward round
      cases s₁ with
      | amid => exact hm₁.elim
      | settled o =>
        cases hm₁
        exact ⟨j + 1 + k, by omega, s', .again nonzero hs₁ hs', hm⟩
  backward := by
    intro m n s hs
    generalize hc : Code.loop body' rest' = c at hs
    induction hs with
    | amid => exact ⟨0, Nat.le_refl 0, .amid _ _⟩
    | nil => cases hc
    | leaf => cases hc
    | exhausted => cases hc
    | skip zero after =>
      cases hc
      obtain ⟨k, le, hk⟩ := hr.backward after
      exact ⟨k + 1, Nat.succ_le_succ le, .skip zero hk⟩
    | inside nonzero round unfinished =>
      cases hc
      obtain ⟨k, le, hk⟩ := hb.backward round
      exact ⟨k + 1, Nat.succ_le_succ le, .inside nonzero hk unfinished⟩
    | again nonzero round _ _ ih =>
      cases hc
      obtain ⟨k, le, hk⟩ := ih rfl
      obtain ⟨j, le', hj⟩ := hb.backward round
      exact ⟨j + 1 + k, by omega, .again nonzero hj hk⟩

/-! ### Leaves that neither read nor write -/

/-- A leaf that does nothing can be dropped. -/
theorem Shortens.drop (ha : ∀ m, exec a m = .ended m) : Shortens exec (Code.leaf a rest) rest where
  forward := by
    intro m n s hs
    cases hs with
    | amid => exact ⟨0, Nat.le_refl 0, _, .amid _ m, .refl _⟩
    | exhausted run => exact nomatch (ha m).symm.trans run
    | leaf run after =>
      cases (ha m).symm.trans run
      exact ⟨_, Nat.le_succ _, _, after, .refl _⟩
  backward := fun {m n s} hs => ⟨n + 1, Nat.le_succ n, .leaf (ha m) hs⟩

/-- Two leaves, the first of which neither reads nor writes, can be one that does what they do. -/
theorem Shortens.merge {first second : Machine → Machine} (ha : ∀ m, exec a m = .ended (first m))
    (hb : ∀ m, exec b m = .ended (second m)) (he : ∀ m, exec e m = .ended (second (first m)))
    (silent : ∀ m : Machine, m.SameStreams (first m)) :
    Shortens exec (Code.leaf a (Code.leaf b rest)) (Code.leaf e rest) where
  forward := by
    intro m n s hs
    cases hs with
    | amid => exact ⟨0, Nat.le_refl 0, _, .amid _ m, .refl _⟩
    | exhausted run => exact nomatch (ha m).symm.trans run
    | leaf run after =>
      cases (ha m).symm.trans run
      cases after with
      | amid => exact ⟨0, Nat.zero_le _, _, .amid _ m, (silent m).symm⟩
      | exhausted run => exact nomatch (hb (first m)).symm.trans run
      | leaf run after =>
        cases (hb (first m)).symm.trans run
        exact ⟨_, Nat.le_succ _, _, .leaf (he m) after, .refl _⟩
  backward := by
    intro m n s hs
    cases hs with
    | amid => exact ⟨0, Nat.le_refl 0, .amid _ m⟩
    | exhausted run => exact nomatch (he m).symm.trans run
    | leaf run after =>
      cases (he m).symm.trans run
      exact ⟨_, Nat.le_succ _, .leaf (ha m) (.leaf (hb (first m)) after)⟩

/-- A leaf can be replaced by one that does the same. -/
theorem Shortens.replace (same : ∀ m, exec a m = exec b m) :
    Shortens exec (Code.leaf a rest) (Code.leaf b rest) where
  forward := by
    intro m n s hs
    refine ⟨n, Nat.le_refl n, s, ?_, .refl s⟩
    cases hs with
    | amid => exact .amid _ m
    | exhausted run => exact .exhausted ((same m).symm.trans run)
    | leaf run after => exact .leaf ((same m).symm.trans run) after
  backward := by
    intro m n s hs
    refine ⟨n, Nat.le_refl n, ?_⟩
    cases hs with
    | amid => exact .amid _ m
    | exhausted run => exact .exhausted ((same m).trans run)
    | leaf run after => exact .leaf ((same m).trans run) after

/-! ### All bodies -/

/-- Changing every body shortens the whole if it shortens each body. -/
theorem shortens_transform {onBody : Code α → Code α}
    (h : ∀ body, Shortens exec body (onBody body)) (c : Code α) :
    Shortens exec c (c.transform id onBody) := by
  have inside : Shortens exec c (c.transformInside id onBody) := by
    induction c with
    | nil => exact .refl exec nil
    | leaf a rest ih => exact .leaf a ih
    | loop body rest ihb ihr => exact .loop (ihb.trans (h _)) ihr
  exact inside.trans (h _)

/-- What shortens code comes to its outcome in no more steps. -/
theorem Shortens.settled (h : Shortens exec c d) {m : Machine} {n : Nat} {o : Outcome}
    (settled : c.Reaches exec m n (.settled o)) : ∃ k ≤ n, d.Reaches exec m k (.settled o) := by
  obtain ⟨k, le, s, hs, hm⟩ := h.forward settled
  cases s with
  | amid => exact hm.elim
  | settled o' =>
    cases hm
    exact ⟨k, le, hs⟩

/-- Code and what shortens it have the same outcomes. -/
theorem Shortens.eval_iff (h : Shortens exec c d) {m : Machine} {o : Outcome} :
    (∃ rounds, d.eval exec rounds m = some o) ↔ ∃ rounds, c.eval exec rounds m = some o := by
  rw [eval_iff_reaches, eval_iff_reaches]
  constructor
  · rintro ⟨n, hn⟩
    obtain ⟨k, -, hk⟩ := h.backward hn
    exact ⟨k, hk⟩
  · rintro ⟨n, hn⟩
    obtain ⟨k, -, hk⟩ := h.settled hn
    exact ⟨k, hk⟩

/-- What shortens code passes through no machine that the code does not pass through. -/
theorem Shortens.stays (h : Shortens exec c d) {P : Machine → Prop} {m : Machine}
    (stays : c.Stays exec P m) : d.Stays exec P m := by
  intro n x hx
  obtain ⟨k, -, hk⟩ := h.backward hx
  exact stays k x hk

end Code

end TapeLang
