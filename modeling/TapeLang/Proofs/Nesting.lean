import Mathlib.Data.List.Induction
import Mathlib.Order.Bounds.Defs

/-! Brackets in a sequence, whatever the two brackets are and whatever stands beside them.

A sequence is `Nested` if it can be read with a stack: nothing is closed before it is opened, and
everything is closed in the end. Two brackets match if what stands between them is nested
(`Matching`), so that the brackets of a nested sequence come in pairs (`Nested.exists_closing`,
`Nested.exists_opening`). Reading from the left, a sequence has come to a list of open brackets with
nested sequences between them (`Opened`), or too much has been closed (`Overclosed`) and there is a
first place where it was (`opened_or_overclosed`). The last bracket of that list is the last one
without a partner (`Opened.isGreatest`). -/
namespace TapeLang

section
variable {α : Type} [DecidableEq α] (o c : α)

/-- No beginning of the sequence closes more than it opens, and the whole sequence closes as much
as it opens. -/
def Nested (s : List α) : Prop :=
  (∀ n, (s.take n).count c ≤ (s.take n).count o) ∧ s.count o = s.count c

/-- With the element at a place, more has been closed than opened. -/
def Overclosed (s : List α) (n : Nat) : Prop := (s.take (n + 1)).count o < (s.take (n + 1)).count c

/-- The brackets at two places belong together. -/
def Matching (s : List α) (i j : Nat) : Prop :=
  ∃ before inner after, s = before ++ o :: (inner ++ c :: after) ∧ Nested o c inner ∧
    before.length = i ∧ i + 1 + inner.length = j

/-- The places of the brackets that are open at the end, last first, where all others match. -/
def Opened : List Nat → List α → Prop
  | [], s => Nested o c s
  | i :: places, s => ∃ before inner, s = before ++ o :: inner ∧ before.length = i ∧
      Nested o c inner ∧ Opened places before

end

variable {α : Type} [DecidableEq α] {o c x : α} {s t inner inner' : List α} {i j j' : Nat}
  {places : List Nat}

/-! ### Nested sequences -/

theorem nested_nil : Nested o c [] := by simp [Nested]

theorem nested_other (opens : x ≠ o) (closes : x ≠ c) : Nested o c [x] := by
  refine ⟨fun n => ?_, ?_⟩
  · cases n <;> simp [opens, closes]
  · simp [opens, closes]

theorem Nested.append (hs : Nested o c s) (ht : Nested o c t) : Nested o c (s ++ t) := by
  refine ⟨fun n => ?_, ?_⟩
  · rw [List.take_append, List.count_append, List.count_append]
    exact Nat.add_le_add (hs.1 n) (ht.1 (n - s.length))
  · rw [List.count_append, List.count_append, hs.2, ht.2]

theorem Nested.wrap (other : o ≠ c) (h : Nested o c s) : Nested o c (o :: (s ++ [c])) := by
  refine ⟨fun n => ?_, ?_⟩
  · cases n with
    | zero => simp
    | succ n =>
      have inside := h.1 n
      have last : ([c].take (n - s.length)).count c ≤ 1 :=
        Nat.le_trans List.count_le_length (List.length_take_le' _ _)
      simp only [List.take_succ_cons, List.take_append, List.count_append, List.count_cons_self,
        List.count_cons_of_ne other]
      omega
  · simp [List.count_cons_of_ne other, List.count_cons_of_ne other.symm, h.2]

/-- What a nested sequence ends at in front of a closing bracket is all of it. -/
theorem Nested.not_closed_inside (h : Nested o c (inner ++ c :: t)) (part : Nested o c inner)
    (other : o ≠ c) : False := by
  have sooner := h.1 (inner.length + 1)
  have taken : (inner ++ c :: t).take (inner.length + 1) = inner ++ [c] :=
    List.take_length_add_append 1
  rw [taken, List.count_append, List.count_append, part.2, List.count_singleton_self,
    List.count_cons_of_ne other.symm, List.count_nil] at sooner
  omega

/-- A nested sequence is told from a closing bracket behind it. -/
theorem Nested.eq_of_append (h : Nested o c inner) (h' : Nested o c inner') (other : o ≠ c)
    (same : inner ++ c :: s = inner' ++ c :: t) : inner = inner' := by
  rcases List.append_eq_append_iff.1 same with ⟨more, rfl, rest⟩ | ⟨more, rfl, rest⟩
  · cases more with
    | nil => simp
    | cons y more =>
      cases rest
      exact (h'.not_closed_inside h other).elim
  · cases more with
    | nil => simp
    | cons y more =>
      cases rest
      exact (h.not_closed_inside h' other).elim

/-! ### Brackets that match -/

theorem Matching.opening (h : Matching o c s i j) : s[i]? = some o := by
  obtain ⟨before, inner, after, rfl, -, rfl, -⟩ := h
  simp

theorem Matching.unique (other : o ≠ c) (h : Matching o c s i j) (h' : Matching o c s i j') :
    j = j' := by
  obtain ⟨before, inner, after, rfl, nested, rfl, rfl⟩ := h
  obtain ⟨before', inner', after', same, nested', len, rfl⟩ := h'
  obtain ⟨rfl, behind⟩ := List.append_inj same len.symm
  cases nested.eq_of_append nested' other (List.cons.inj behind).2
  rfl

theorem Matching.behind (h : Matching o c s i j) (front : List α) :
    Matching o c (front ++ s) (front.length + i) (front.length + j) := by
  obtain ⟨before, inner, after, rfl, nested, rfl, rfl⟩ := h
  exact ⟨front ++ before, inner, after, by simp, nested, by simp, by omega⟩

/-! ### Reading from the left -/

theorem Opened.append (hs : Opened o c places s) (ht : Nested o c t) :
    Opened o c places (s ++ t) := by
  cases places with
  | nil => exact Nested.append hs ht
  | cons i places =>
    obtain ⟨before, inner, rfl, len, nested, opened⟩ := hs
    exact ⟨before, inner ++ t, by simp, len, nested.append ht, opened⟩

theorem Opened.opening (h : Opened o c places s) : Opened o c (s.length :: places) (s ++ [o]) :=
  ⟨s, [], rfl, rfl, nested_nil, h⟩

theorem Opened.closing (other : o ≠ c) (h : Opened o c (i :: places) s) :
    Opened o c places (s ++ [c]) := by
  obtain ⟨before, inner, rfl, -, nested, opened⟩ := h
  have whole := opened.append (nested.wrap other)
  rwa [← List.cons_append, ← List.append_assoc] at whole

/-- Where brackets are open, no beginning has closed too much. -/
theorem Opened.not_overclosed (other : o ≠ c) (h : Opened o c places s) (n : Nat) :
    ¬ Overclosed o c s n := by
  suffices kept : ∀ n, (s.take n).count c ≤ (s.take n).count o from Nat.not_lt.2 (kept (n + 1))
  clear n
  intro n
  induction places generalizing s n with
  | nil => exact h.1 n
  | cons i places ih =>
    obtain ⟨before, inner, rfl, -, nested, opened⟩ := h
    have first := ih opened n
    rw [List.take_append, List.count_append, List.count_append]
    cases n - before.length with
    | zero => simpa using first
    | succ k =>
      have second := nested.1 k
      rw [List.take_succ_cons, List.count_cons_self, List.count_cons_of_ne other]
      omega

/-- A closing bracket where none is open is the first one too many. -/
theorem Nested.isLeast_overclosed (h : Nested o c s) (other : o ≠ c) (rest : List α) :
    IsLeast {n | Overclosed o c (s ++ c :: rest) n} s.length := by
  constructor
  · have taken : (s ++ c :: rest).take (s.length + 1) = s ++ [c] := List.take_length_add_append 1
    show List.count o _ < List.count c _
    rw [taken, List.count_append, List.count_append, h.2, List.count_singleton_self,
      List.count_cons_of_ne other.symm, List.count_nil]
    omega
  · intro n more
    by_contra sooner
    have inside : (s ++ c :: rest).take (n + 1) = s.take (n + 1) :=
      List.take_append_of_le_length (Nat.succ_le_of_lt (Nat.not_le.1 sooner))
    have more : List.count o ((s ++ c :: rest).take (n + 1)) < List.count c _ := more
    rw [inside] at more
    exact absurd more (Nat.not_lt.2 (h.1 (n + 1)))

/-- Every sequence is read to its end, with some brackets open, or to the first closing bracket too
many. -/
theorem opened_or_overclosed (other : o ≠ c) (s : List α) :
    (∃ places, Opened o c places s) ∨ ∃ front rest, s = front ++ c :: rest ∧ Nested o c front := by
  induction s using List.reverseRecOn with
  | nil => exact .inl ⟨[], nested_nil⟩
  | append_singleton s x ih =>
    rcases ih with ⟨places, opened⟩ | ⟨front, rest, rfl, nested⟩
    · by_cases opens : x = o
      · subst opens
        exact .inl ⟨s.length :: places, opened.opening⟩
      by_cases closes : x = c
      · subst closes
        cases places with
        | nil => exact .inr ⟨s, [], rfl, opened⟩
        | cons i places => exact .inl ⟨places, opened.closing other⟩
      · exact .inl ⟨places, opened.append (nested_other opens closes)⟩
    · exact .inr ⟨front, rest ++ [x], by simp, nested⟩

/-- If more is closed than opened, there is a first bracket too many. -/
theorem exists_overclosing (other : o ≠ c) (h : s.count o < s.count c) :
    ∃ front rest, s = front ++ c :: rest ∧ Nested o c front := by
  refine (opened_or_overclosed other s).resolve_left ?_
  intro reading
  obtain ⟨places, opened⟩ := reading
  refine opened.not_overclosed other s.length ?_
  show List.count o _ < List.count c _
  rwa [List.take_of_length_le (Nat.le_succ _)]

/-! ### Partners -/

omit [DecidableEq α] in
theorem exists_split (here : s[i]? = some x) :
    ∃ before after, s = before ++ x :: after ∧ before.length = i := by
  obtain ⟨inside, rfl⟩ := List.getElem?_eq_some_iff.1 here
  exact ⟨s.take i, s.drop (i + 1), by simp, List.length_take_of_le (Nat.le_of_lt inside)⟩

/-- A nested sequence closes in every part at its end all that it opens there. -/
theorem Nested.count_le (h : Nested o c (s ++ t)) : t.count o ≤ t.count c := by
  have first := h.1 s.length
  have whole := h.2
  rw [List.take_left] at first
  rw [List.count_append, List.count_append] at whole
  omega

/-- **In a nested sequence every opening bracket has its closing one.** -/
theorem Nested.exists_closing (h : Nested o c s) (other : o ≠ c) (here : s[i]? = some o) :
    ∃ j, Matching o c s i j := by
  obtain ⟨before, after, rfl, rfl⟩ := exists_split here
  have closed := h.count_le
  rw [List.count_cons_self, List.count_cons_of_ne other] at closed
  obtain ⟨inner, rest, rfl, nested⟩ := exists_overclosing other closed
  exact ⟨_, before, inner, rest, rfl, nested, rfl, rfl⟩

/-- **In a nested sequence every closing bracket has its opening one.** -/
theorem Nested.exists_opening (h : Nested o c s) (other : o ≠ c) (here : s[j]? = some c) :
    ∃ i, Matching o c s i j := by
  obtain ⟨before, after, rfl, rfl⟩ := exists_split here
  rcases opened_or_overclosed other before with ⟨_ | ⟨i, places⟩, opened⟩ | ⟨front, rest, rfl, part⟩
  · exact (h.not_closed_inside opened other).elim
  · obtain ⟨first, inner, rfl, rfl, nested, -⟩ := opened
    exact ⟨_, first, inner, after, by simp, nested, rfl, by simp; omega⟩
  · rw [List.append_assoc, List.cons_append] at h
    exact (h.not_closed_inside part other).elim

/-- **The last bracket that is open is the last one without a partner.** -/
theorem Opened.isGreatest (h : Opened o c (i :: places) s) (other : o ≠ c) :
    IsGreatest {k | s[k]? = some o ∧ ∀ j, ¬ Matching o c s k j} i := by
  obtain ⟨before, inner, rfl, rfl, nested, -⟩ := h
  constructor
  · refine ⟨by simp, ?_⟩
    intro j pair
    obtain ⟨first, inside, after, same, part, len, -⟩ := pair
    obtain ⟨-, behind⟩ := List.append_inj same len.symm
    cases (List.cons.inj behind).2
    exact nested.not_closed_inside part other
  · intro k lonely
    obtain ⟨here, alone⟩ := lonely
    by_contra later
    -- A bracket behind the last open one stands in a nested sequence.
    obtain ⟨k, rfl⟩ : ∃ d, k = (before ++ [o]).length + d :=
      ⟨k - (before ++ [o]).length, by simp; omega⟩
    rw [List.append_cons, List.getElem?_append_right (Nat.le_add_right _ _),
      Nat.add_sub_cancel_left] at here
    obtain ⟨j, pair⟩ := nested.exists_closing other here
    have pair := pair.behind (before ++ [o])
    rw [← List.append_cons] at pair
    exact alone _ pair

end TapeLang
