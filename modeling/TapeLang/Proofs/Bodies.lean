import TapeLang.Op.Pass

/-! The bodies of nested code, and what stands next to what in them.

A pass changes every body, and what it leaves to do is said of every body too. If it keeps the loops
of a body as they are, the bodies of the result are the results of the bodies (`bodies_transform`),
and code that it does not change is code of which it changes no body (`transform_eq_self_iff`). What
it sees of a body is its leaves, in rows between the loops, and these are the same before and after
the inner bodies were changed (`hasRow_transformInside`). The leaves of all bodies together have an
order of their own, that of the source (`leaves`). -/
namespace TapeLang.Code
variable {α : Type}

/-- The bodies of the loops at all depths. -/
def innerBodies : Code α → List (Code α)
  | nil => []
  | leaf _ rest => rest.innerBodies
  | loop body rest => body :: (body.innerBodies ++ rest.innerBodies)

/-- The top level and the bodies of the loops at all depths. -/
def bodies (c : Code α) : List (Code α) := c :: c.innerBodies

/-! ### Leaves in order -/

/-- The leaves at all depths, in the order of the source. -/
def leaves : Code α → List α
  | nil => []
  | leaf a rest => a :: rest.leaves
  | loop body rest => body.leaves ++ rest.leaves

theorem all_eq_true_iff {test : α → Bool} {c : Code α} :
    c.all test = true ↔ ∀ a ∈ c.leaves, test a = true := by
  induction c with
  | nil => simp [all, leaves]
  | leaf a rest ih => simp [all, leaves, ih]
  | loop body rest ihb ihr => simp [all, leaves, ihb, ihr, or_imp, forall_and]

theorem leaves_subset_of_mem_innerBodies {body c : Code α} (mem : body ∈ c.innerBodies) :
    body.leaves ⊆ c.leaves := by
  induction c with
  | nil => exact nomatch mem
  | leaf a rest ih => exact List.subset_cons_of_subset a (ih mem)
  | loop inner rest ihb ihr =>
    simp only [innerBodies, List.mem_cons, List.mem_append] at mem
    rcases mem with rfl | mem | mem
    · exact List.subset_append_left ..
    · exact List.subset_append_of_subset_left _ (ihb mem)
    · exact List.subset_append_of_subset_right _ (ihr mem)

theorem leaves_subset_of_mem_bodies {body c : Code α} (mem : body ∈ c.bodies) :
    body.leaves ⊆ c.leaves := by
  rcases List.mem_cons.1 mem with rfl | inside
  · exact List.Subset.refl _
  · exact leaves_subset_of_mem_innerBodies inside

/-! ### Rows of leaves -/

/-- Some leaves stand at the start of a body. -/
def StartsWith (c : Code α) (row : List α) : Prop := ∃ rest, c = row.foldr leaf rest

/-- Some leaves stand somewhere in a body, one right after the other. -/
def HasRow (c : Code α) (row : List α) : Prop := ∃ before rest, c = before ++ row.foldr leaf rest

variable {a b : α} {row : List α} {body rest : Code α}

@[simp] theorem startsWith_nil (c : Code α) : c.StartsWith [] := ⟨c, rfl⟩

@[simp] theorem not_startsWith_of_nil : ¬ (nil : Code α).StartsWith (a :: row) := nofun

@[simp] theorem not_startsWith_of_loop : ¬ (loop body rest).StartsWith (a :: row) := nofun

@[simp] theorem startsWith_leaf :
    (leaf a rest).StartsWith (b :: row) ↔ a = b ∧ rest.StartsWith row := by
  simp [StartsWith]

@[simp] theorem not_hasRow_nil : ¬ (nil : Code α).HasRow (a :: row) := by
  intro row
  obtain ⟨before, rest, h⟩ := row
  cases before <;> cases h

@[simp] theorem hasRow_loop : (loop body rest).HasRow (a :: row) ↔ rest.HasRow (a :: row) := by
  constructor
  · intro row
    obtain ⟨before, rest, h⟩ := row
    cases before <;> cases h
    exact ⟨_, rest, rfl⟩
  · intro row
    obtain ⟨before, rest, rfl⟩ := row
    exact ⟨loop body before, rest, rfl⟩

/-- A row starts at the first leaf or after it. -/
@[simp] theorem hasRow_leaf :
    (leaf a rest).HasRow (b :: row) ↔ (a = b ∧ rest.StartsWith row) ∨ rest.HasRow (b :: row) := by
  constructor
  · intro row
    obtain ⟨before, rest, h⟩ := row
    cases before <;> cases h
    · exact .inl ⟨rfl, rest, rfl⟩
    · exact .inr ⟨_, rest, rfl⟩
  · intro row
    rcases row with ⟨rfl, rest, rfl⟩ | ⟨before, rest, rfl⟩
    · exact ⟨nil, rest, rfl⟩
    · exact ⟨leaf a before, rest, rfl⟩

theorem mem_leaves_of_hasRow {c : Code α} (h : c.HasRow [a]) : a ∈ c.leaves := by
  induction c with
  | nil => exact absurd h not_hasRow_nil
  | leaf b rest ih =>
    rcases hasRow_leaf.1 h with ⟨rfl, -⟩ | later
    · exact List.mem_cons_self
    · exact List.mem_cons_of_mem b (ih later)
  | loop body rest _ ih => exact List.mem_append_right _ (ih (hasRow_loop.1 h))

theorem foldr_leaf_append (row : List α) (c k : Code α) :
    row.foldr leaf c ++ k = row.foldr leaf (c ++ k) := by
  induction row with
  | nil => rfl
  | cons a row ih => rw [List.foldr_cons, leaf_append, ih, List.foldr_cons]

/-- Where some leaves stand in a row, some of them in a row do. -/
theorem HasRow.part {c : Code α} (left row right : List α) (h : c.HasRow (left ++ row ++ right)) :
    c.HasRow row := by
  obtain ⟨before, rest, rfl⟩ := h
  refine ⟨before ++ left.foldr leaf nil, right.foldr leaf rest, ?_⟩
  rw [append_assoc, foldr_leaf_append, nil_append, List.foldr_append, List.foldr_append]

/-! ### Changing every body -/

variable {onBody : Code α → Code α} {c : Code α}

theorem leaves_map {β : Type} (onLeaf : α → β) (c : Code α) :
    (c.transform onLeaf id).leaves = c.leaves.map onLeaf := by
  show (c.transformInside onLeaf id).leaves = _
  induction c with
  | nil => rfl
  | leaf a rest ih => simp only [transformInside, leaves, ih, List.map_cons]
  | loop body rest ihb ihr => simp only [transformInside, leaves, ihb, ihr, List.map_append, id_eq]

/-- What is read off the leaves in order stays, if changing a body keeps what is read off it. -/
theorem filterMap_leaves_transform {β : Type} {read : α → Option β}
    (keeps : ∀ body, (onBody body).leaves.filterMap read = body.leaves.filterMap read)
    (c : Code α) : (c.transform id onBody).leaves.filterMap read = c.leaves.filterMap read := by
  rw [transform, keeps]
  induction c with
  | nil => rfl
  | leaf a rest ih => simp only [transformInside, leaves, List.filterMap_cons, ih, id_eq]
  | loop body rest ihb ihr =>
    simp only [transformInside, leaves, List.filterMap_append, keeps, ihb, ihr]

theorem startsWith_transformInside :
    (c.transformInside id onBody).StartsWith row ↔ c.StartsWith row := by
  induction row generalizing c with
  | nil => simp
  | cons a row ih => cases c <;> simp [transformInside, ih]

/-- The rows of a body stay as they are when the bodies of its loops are changed. -/
theorem hasRow_transformInside :
    (c.transformInside id onBody).HasRow (a :: row) ↔ c.HasRow (a :: row) := by
  induction c with
  | nil => rfl
  | leaf b rest ih => simp [transformInside, ih, startsWith_transformInside]
  | loop body rest _ ih => simp [transformInside, ih]

theorem innerBodies_transformInside (keeps : ∀ c, (onBody c).innerBodies = c.innerBodies) :
    (c.transformInside id onBody).innerBodies = c.innerBodies.map (transform id onBody) := by
  induction c with
  | nil => rfl
  | leaf a rest ih => exact ih
  | loop body rest ihb ihr =>
    simp only [transformInside, innerBodies, keeps, ihb, ihr, List.map_cons, List.map_append,
      transform]

/-- If a change of one body makes no new loop, the loops inside stem from loops inside. -/
theorem exists_of_mem_innerBodies_transformInside
    (fewer : ∀ c, (onBody c).innerBodies ⊆ c.innerBodies) {body : Code α}
    (mem : body ∈ (c.transformInside id onBody).innerBodies) :
    ∃ source ∈ c.innerBodies, body = source.transform id onBody := by
  induction c with
  | nil => exact nomatch mem
  | leaf a rest ih => exact ih mem
  | loop inner rest ihb ihr =>
    simp only [transformInside, innerBodies, List.mem_cons, List.mem_append] at mem ⊢
    rcases mem with rfl | mem | mem
    · exact ⟨inner, .inl rfl, rfl⟩
    · obtain ⟨source, inside, same⟩ := ihb (fewer _ mem)
      exact ⟨source, .inr (.inl inside), same⟩
    · obtain ⟨source, inside, same⟩ := ihr mem
      exact ⟨source, .inr (.inr inside), same⟩

theorem bodies_transform (keeps : ∀ c, (onBody c).innerBodies = c.innerBodies) :
    (c.transform id onBody).bodies = c.bodies.map (transform id onBody) := by
  rw [bodies, transform, keeps, innerBodies_transformInside keeps]
  rfl

theorem transformInside_eq_self (fixed : ∀ body ∈ c.innerBodies, onBody body = body) :
    c.transformInside id onBody = c := by
  induction c with
  | nil => rfl
  | leaf a rest ih => rw [transformInside, ih fixed, id_eq]
  | loop body rest ihb ihr =>
    simp only [innerBodies, List.mem_cons, List.mem_append] at fixed
    rw [transformInside, ihb fun b h => fixed b (.inr (.inl h)),
      ihr fun b h => fixed b (.inr (.inr h)), fixed body (.inl rfl)]

/-- What changes no code inside loops leaves every body alone. -/
theorem transformInside_eq_self_of_transform
    (fixed : ∀ body ∈ c.innerBodies, body.transform id onBody = body) :
    c.transformInside id onBody = c := by
  induction c with
  | nil => rfl
  | leaf a rest ih => rw [transformInside, ih fixed, id_eq]
  | loop body rest _ ihr =>
    simp only [innerBodies, List.mem_cons, List.mem_append] at fixed
    have here : onBody (body.transformInside id onBody) = body := fixed body (.inl rfl)
    rw [transformInside, here, ihr fun b h => fixed b (.inr (.inr h))]

/-- **Code stays as it is exactly if all of its bodies do.** -/
theorem transform_eq_self_iff (keeps : ∀ c, (onBody c).innerBodies = c.innerBodies) :
    c.transform id onBody = c ↔ ∀ body ∈ c.bodies, onBody body = body := by
  constructor
  · have all {c : Code α} (h : c.transform id onBody = c) :
        ∀ body ∈ c.bodies, body.transform id onBody = body := by
      have same := bodies_transform (c := c) keeps
      rw [h] at same
      exact List.map_inj_left.1 (same.symm.trans (List.map_id c.bodies).symm)
    intro h body mem
    have whole := all h body mem
    have inside : body.transformInside id onBody = body :=
      transformInside_eq_self_of_transform fun b inner => all whole b (.tail _ inner)
    rw [transform, inside] at whole
    exact whole
  · intro fixed
    rw [transform, transformInside_eq_self fun body inner => fixed body (.tail _ inner)]
    exact fixed c (.head _)

end TapeLang.Code

/-! ### Passes -/

namespace TapeLang.Pass

variable {pass : Pass} {c : Packed}

theorem apply_eq_transform (pass : Pass) : pass.apply = Code.transform id pass.onBody :=
  funext (Code.walk_eq_transform id pass.onBody)

/-- A pass that keeps the loops of a body works on every body as on code of its own. -/
theorem bodies_apply (keeps : ∀ c, (pass.onBody c).innerBodies = c.innerBodies) :
    (pass.apply c).bodies = c.bodies.map pass.apply := by
  rw [apply_eq_transform]
  exact Code.bodies_transform keeps

/-- What a pass that makes no new loop makes of the bodies of the loops. -/
theorem exists_of_mem_innerBodies_apply
    (fewer : ∀ c, (pass.onBody c).innerBodies ⊆ c.innerBodies) {body : Packed}
    (mem : body ∈ (pass.apply c).innerBodies) :
    ∃ source ∈ c.innerBodies, body = pass.apply source := by
  rw [apply_eq_transform] at mem ⊢
  exact Code.exists_of_mem_innerBodies_transformInside fewer (fewer _ mem)

theorem exists_of_mem_bodies_apply
    (fewer : ∀ c, (pass.onBody c).innerBodies ⊆ c.innerBodies) {body : Packed}
    (mem : body ∈ (pass.apply c).bodies) : ∃ source ∈ c.bodies, body = pass.apply source := by
  rcases List.mem_cons.1 mem with rfl | inside
  · exact ⟨c, .head _, rfl⟩
  · obtain ⟨source, mem, same⟩ := exists_of_mem_innerBodies_apply fewer inside
    exact ⟨source, .tail _ mem, same⟩

theorem exists_mem_bodies_apply (keeps : ∀ c, (pass.onBody c).innerBodies = c.innerBodies)
    {P : Packed → Prop} :
    (∃ body ∈ (pass.apply c).bodies, P body) ↔ ∃ body ∈ c.bodies, P (pass.apply body) := by
  rw [bodies_apply keeps]
  constructor
  · intro h
    obtain ⟨_, mem, holds⟩ := h
    obtain ⟨body, inside, rfl⟩ := List.mem_map.1 mem
    exact ⟨body, inside, holds⟩
  · intro h
    obtain ⟨body, inside, holds⟩ := h
    exact ⟨_, List.mem_map_of_mem inside, holds⟩

theorem apply_eq_self_iff (keeps : ∀ c, (pass.onBody c).innerBodies = c.innerBodies) :
    pass.apply c = c ↔ ∀ body ∈ c.bodies, pass.onBody body = body := by
  rw [apply_eq_transform]
  exact Code.transform_eq_self_iff keeps

/-- A pass makes of code what it makes of a body with the same rows. -/
theorem apply_eq_onBody (pass : Pass) (c : Packed) : ∃ body, pass.apply c = pass.onBody body ∧
    ∀ a row, body.HasRow (a :: row) ↔ c.HasRow (a :: row) := by
  rw [apply_eq_transform]
  exact ⟨_, rfl, fun a row => Code.hasRow_transformInside⟩

end TapeLang.Pass
