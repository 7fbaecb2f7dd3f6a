import TapeLang.Op
import TapeLang.Proofs.Course

/-! The rounds of a walk that changes every body.

A walk is a loop: in each round it maps a leaf, enters a loop of the code, or gives a body that is
done to the change and is back in the body around it (`Walk.result_eq`). A round leaves one thing
less to visit in the body and in all those around it that are left at a loop (`Walk.unvisited_eq`),
so the rounds can be counted before the first one. With a sequence in front of it a walk gets
through it, whatever bodies are around (`Walk.leads_through`), and by then it has given the bodies
inside to the change. Each of them has a path, and a list of paths in which none begins with an
earlier one has every body once and in front of those around it (`inward_innermostFirst`). What a
walk comes to is what the change makes of the sequence once the bodies of its loops are what walks
make of them (`walk_eq_onBody`). -/
namespace TapeLang.Code
open Course (Leads Halts)
variable {α β : Type}

/-! ### The recursive definitions -/

/-- The sequence with the bodies of the loops at its top level changed. -/
def mapBodies (change : Code α → Code α) : Code α → Code α
  | nil => nil
  | leaf a rest => leaf a (rest.mapBodies change)
  | loop body rest => loop (change body) (rest.mapBodies change)

/-- The same nesting with other leaves. -/
def map (onLeaf : α → β) : Code α → Code β
  | nil => nil
  | leaf a rest => leaf (onLeaf a) (rest.map onLeaf)
  | loop body rest => loop (body.map onLeaf) (rest.map onLeaf)

theorem transformInside_eq_mapBodies (onBody : Code α → Code α) (c : Code α) :
    c.transformInside id onBody = c.mapBodies (walk id onBody) := by
  induction c with
  | nil => rfl
  | leaf a rest ih => rw [transformInside, mapBodies, ih, id_eq]
  | loop body rest _ ih => rw [transformInside, mapBodies, ih, walk_eq_transform, transform]

/-- **A walk makes of a sequence what the change makes of it, once the bodies of its loops are what
walks make of them.** -/
theorem walk_eq_onBody (onBody : Code α → Code α) (c : Code α) :
    c.walk id onBody = onBody (c.mapBodies (walk id onBody)) := by
  rw [walk_eq_transform, transform, transformInside_eq_mapBodies]

/-- A walk that changes no body only maps the leaves. -/
theorem walk_eq_map (onLeaf : α → β) (c : Code α) : c.walk onLeaf id = c.map onLeaf := by
  rw [walk_eq_transform, transform, id_eq]
  induction c with
  | nil => rfl
  | leaf a rest ih => rw [transformInside, map, ih]
  | loop body rest ihb ihr => rw [transformInside, map, ihb, ihr, id_eq]

/-! ### Paths of bodies -/

/-- The body of the loop at a place of a sequence, if a loop stands there. -/
def loopAt? : Code α → Nat → Option (Code α)
  | nil, _ => none
  | leaf _ _, 0 => none
  | loop body _, 0 => some body
  | leaf _ rest, i + 1 => rest.loopAt? i
  | loop _ rest, i + 1 => rest.loopAt? i

/-- The body at the end of a path, which goes into the loop at a place of each body on its way. -/
def bodyAt? : Code α → List Nat → Option (Code α)
  | c, [] => some c
  | c, i :: path => (c.loopAt? i).bind fun body => body.bodyAt? path

/-- The bodies inside a sequence with their paths, if so many elements stand in front of the
sequence. What is inside a loop comes before its body. -/
def innermostFrom : Nat → Code α → List (List Nat × Code α)
  | _, nil => []
  | i, leaf _ rest => innermostFrom (i + 1) rest
  | i, loop body rest =>
    (innermostFrom 0 body ++ [([], body)]).map (Prod.map (i :: ·) id) ++ innermostFrom (i + 1) rest

/-- All bodies with their paths, the innermost ones first and the top level last. -/
def innermostFirst (c : Code α) : List (List Nat × Code α) := innermostFrom 0 c ++ [([], c)]

/-- No path begins with an earlier one. -/
def Inward (entries : List (List Nat × Code α)) : Prop :=
  entries.Pairwise fun earlier later => ¬ earlier.1 <+: later.1

section
variable {c body : Code α} {path : List Nat} {i : Nat}

/-- The top level is at the end of the empty path, and of no other. -/
theorem mem_innermostFirst_of
    (inside : ∀ path, (path, body) ∈ innermostFrom 0 c ↔
      ∃ j inner, path = j :: inner ∧ c.bodyAt? (j :: inner) = some body) :
    (path, body) ∈ c.innermostFirst ↔ c.bodyAt? path = some body := by
  rw [innermostFirst, List.mem_append, inside, List.mem_singleton]
  cases path with
  | nil => simp [bodyAt?, eq_comm]
  | cons j inner =>
    constructor
    · rintro (⟨_, _, same, here⟩ | same)
      · cases same
        exact here
      · cases same
    · exact fun here => .inl ⟨j, inner, rfl, here⟩

theorem mem_innermostFrom :
    (path, body) ∈ innermostFrom i c ↔
      ∃ j inner, path = (j + i) :: inner ∧ c.bodyAt? (j :: inner) = some body := by
  induction c generalizing i path with
  | nil => simp [innermostFrom, bodyAt?, loopAt?]
  | leaf a rest ih =>
    rw [innermostFrom, ih]
    constructor
    · rintro ⟨j, inner, rfl, here⟩
      exact ⟨j + 1, inner, by rw [Nat.succ_add_eq_add_succ], here⟩
    · rintro ⟨_ | j, inner, rfl, here⟩
      · exact nomatch here
      · exact ⟨j, inner, by rw [Nat.succ_add_eq_add_succ], here⟩
  | loop first rest ihb ihr =>
    have inside (inner : List Nat) :
        (inner, body) ∈ first.innermostFirst ↔ first.bodyAt? inner = some body :=
      mem_innermostFirst_of fun _ => ihb
    rw [innermostFrom, List.mem_append, ihr, List.mem_map]
    constructor
    · rintro (⟨⟨inner, _⟩, mem, same⟩ | ⟨j, inner, rfl, here⟩)
      · cases same
        exact ⟨0, inner, by rw [Nat.zero_add], (inside inner).1 mem⟩
      · exact ⟨j + 1, inner, by rw [Nat.succ_add_eq_add_succ], here⟩
    · rintro ⟨_ | j, inner, rfl, here⟩
      · exact .inl ⟨(inner, body), (inside inner).2 here, by rw [Nat.zero_add]; rfl⟩
      · exact .inr ⟨j, inner, by rw [Nat.succ_add_eq_add_succ], here⟩

/-- Every body is listed at its path, and nothing else is. -/
theorem mem_innermostFirst : (path, body) ∈ c.innermostFirst ↔ c.bodyAt? path = some body :=
  mem_innermostFirst_of fun _ => mem_innermostFrom

theorem inward_innermostFirst_of (inside : Inward (innermostFrom 0 c)) :
    Inward c.innermostFirst := by
  refine List.pairwise_append.2 ⟨inside, List.pairwise_singleton _ _, ?_⟩
  rintro ⟨path, body⟩ mem top last
  obtain ⟨j, inner, rfl, -⟩ := mem_innermostFrom.1 mem
  rw [List.mem_singleton.1 last, List.prefix_nil]
  exact List.cons_ne_nil _ _

theorem inward_innermostFrom : Inward (innermostFrom i c) := by
  induction c generalizing i with
  | nil => exact .nil
  | leaf a rest ih => exact ih
  | loop body rest ihb ihr =>
    refine List.pairwise_append.2 ⟨List.pairwise_map.2 ?_, ihr, ?_⟩
    · refine (inward_innermostFirst_of ihb).imp fun apart begins => ?_
      exact apart (List.cons_prefix_cons.1 begins).2
    · -- The paths into this loop and those into a later one differ at the first place.
      rintro entry mem ⟨path, later⟩ behind begins
      obtain ⟨inner, -, rfl⟩ := List.mem_map.1 mem
      obtain ⟨j, outer, rfl, -⟩ := mem_innermostFrom.1 behind
      have same := (List.cons_prefix_cons.1 begins).1
      omega

/-- **Every body is listed once, and in front of those around it.** -/
theorem inward_innermostFirst : Inward c.innermostFirst :=
  inward_innermostFirst_of inward_innermostFrom

/-- In `+[[-]>][-]` the loop inside the first loop comes first, then that loop and the last one. -/
example (add sub right : α) :
    (leaf add <| loop (loop (leaf sub .nil) <| leaf right .nil) <|
      loop (leaf sub .nil) .nil).innermostFirst.map Prod.fst = [[1, 0], [1], [2], []] := rfl

end

/-! ### Rounds -/

/-- A walk in the middle of a body. -/
structure Walk (α β : Type) where
  /-- The bodies around it, each left at a loop, innermost first. -/
  outer : List (Suspended α β)
  /-- What is left of the body. -/
  rest : Code α
  /-- What has been built of it, last first. -/
  built : Code β
  /-- The bodies that have been given to the change, in this order. -/
  given : List (Code β)

namespace Walk
variable (onLeaf : α → β) (onBody : Code β → Code β)

def start (c : Code α) : Walk α β := ⟨[], c, nil, []⟩

/-- One round of a walk. After the last one there is the changed top level, with the bodies that
have been given to the change. -/
def round : Walk α β → Walk α β ⊕ (Code β × List (Code β))
  | ⟨outer, leaf a rest, built, given⟩ => .inl ⟨outer, rest, leaf (onLeaf a) built, given⟩
  | ⟨outer, loop body rest, built, given⟩ => .inl ⟨⟨rest, built⟩ :: outer, body, nil, given⟩
  | ⟨s :: outer, nil, built, given⟩ =>
    .inl ⟨outer, s.rest, loop (onBody built.reverse) s.built, given ++ [built.reverse]⟩
  | ⟨[], nil, built, given⟩ => .inr (onBody built.reverse, given ++ [built.reverse])

def result (w : Walk α β) : Code β := walkFrom onLeaf onBody w.outer w.rest w.built

/-- What is left to visit, in the body and in those around it. -/
def unvisited (w : Walk α β) : Nat := w.rest.unvisited + Suspended.unvisited w.outer

/-- A walk is the loop of its rounds. -/
theorem result_eq (w : Walk α β) :
    w.result onLeaf onBody = (w.round onLeaf onBody).elim (result onLeaf onBody) Prod.fst := by
  match w with
  | ⟨outer, leaf a rest, built, given⟩ =>
    rw [result, walkFrom]
    rfl
  | ⟨outer, loop body rest, built, given⟩ =>
    rw [result, walkFrom]
    rfl
  | ⟨s :: outer, nil, built, given⟩ =>
    rw [result, walkFrom]
    rfl
  | ⟨[], nil, built, given⟩ =>
    rw [result, walkFrom]
    rfl

/-- A round leaves one thing less to visit, and the last one finds nothing left. -/
theorem unvisited_eq (w : Walk α β) :
    w.unvisited = (w.round onLeaf onBody).elim (fun next => next.unvisited + 1) fun _ => 0 := by
  match w with
  | ⟨outer, leaf a rest, built, given⟩ => exact Nat.add_right_comm ..
  | ⟨outer, loop body rest, built, given⟩ =>
    simp only [unvisited, round, Sum.elim_inl, Code.unvisited, Suspended.unvisited]
    omega
  | ⟨s :: outer, nil, built, given⟩ =>
    simp only [unvisited, round, Sum.elim_inl, Code.unvisited, Suspended.unvisited]
    omega
  | ⟨[], nil, built, given⟩ => rfl

variable {onLeaf onBody} {outer : List (Suspended α β)} {given : List (Code β)}

theorem round_leave (s : Suspended α β) (inner : Code β) :
    round onLeaf onBody ⟨s :: outer, nil, inner.reverse, given⟩ =
      .inl ⟨outer, s.rest, loop (onBody inner) s.built, given ++ [inner]⟩ := by
  rw [round, reverse_reverse]

theorem round_end (inner : Code β) :
    round onLeaf onBody ⟨[], nil, inner.reverse, given⟩ =
      .inr (onBody inner, given ++ [inner]) := by
  rw [round, reverse_reverse]

theorem result_of_halts {w : Walk α β} {e : Code β × List (Code β)}
    (halts : Halts (round onLeaf onBody) w e) : w.result onLeaf onBody = e.1 :=
  halts.view_eq (result_eq onLeaf onBody)

variable (onLeaf onBody)

/-- The bodies inside a sequence as they are given to the change. -/
def givenIn (i : Nat) (c : Code α) : List (Code β) :=
  (innermostFrom i c).map fun entry => entry.2.transformInside onLeaf onBody

theorem givenIn_loop (i : Nat) (body rest : Code α) :
    givenIn onLeaf onBody i (loop body rest) =
      givenIn onLeaf onBody 0 body ++ [body.transformInside onLeaf onBody] ++
        givenIn onLeaf onBody (i + 1) rest := by
  simp [givenIn, innermostFrom]

/-- **With a sequence in front of it, a walk comes to the end of the sequence**, and has given the
bodies inside to the change, whatever bodies are around. -/
theorem leads_through (i : Nat) (c : Code α) (outer : List (Suspended α β)) (built : Code β)
    (given : List (Code β)) :
    Leads (round onLeaf onBody) ⟨outer, c, built, given⟩
      ⟨outer, nil, (c.transformInside onLeaf onBody).reverseOnto built,
        given ++ givenIn onLeaf onBody i c⟩ := by
  induction c generalizing i outer built given with
  | nil =>
    rw [show givenIn onLeaf onBody i nil = [] from rfl, List.append_nil]
    exact .refl
  | leaf a rest ih => exact (ih (i + 1) outer (leaf (onLeaf a) built) given).head rfl
  | loop body rest ihb ihr =>
    have inside := (ihb 0 (⟨rest, built⟩ :: outer) nil given).tail (round_leave ⟨rest, built⟩ _)
    have behind := ihr (i + 1) outer (loop (onBody (body.transformInside onLeaf onBody)) built)
      (given ++ givenIn onLeaf onBody 0 body ++ [body.transformInside onLeaf onBody])
    rw [givenIn_loop, ← List.append_assoc, ← List.append_assoc]
    exact (inside.trans behind).head rfl

theorem halts_start (c : Code α) :
    Halts (round onLeaf onBody) (start c) (c.walk onLeaf onBody,
      c.innermostFirst.map fun entry => entry.2.transformInside onLeaf onBody) := by
  have halts : Halts (round onLeaf onBody) (start c) _ :=
    ⟨_, leads_through onLeaf onBody 0 c [] nil [], round_end _⟩
  have code : c.walk onLeaf onBody = onBody (c.transformInside onLeaf onBody) :=
    result_of_halts halts
  rw [code, innermostFirst, List.map_append]
  exact halts

/-- A walk takes as many rounds as there is to visit, and the last one. -/
theorem run_start (c : Code α) (fuel : Nat) :
    Course.run (round onLeaf onBody) fuel (start c) =
      if fuel ≤ c.unvisited then none
      else some (c.walk onLeaf onBody,
        c.innermostFirst.map fun entry => entry.2.transformInside onLeaf onBody) :=
  (halts_start onLeaf onBody c).run_eq (unvisited_eq onLeaf onBody) fuel

end Walk

end TapeLang.Code

namespace TapeLang
open Code (Walk)

/-- **Walks from a stack compute their recursive definitions.** For any change of bodies and any
packed code, the loop of the rounds ends, after as many rounds as there is to visit and one, with
what the walk comes to. That is what the change makes of the code once the bodies of its loops are
what walks make of them. The bodies that have been given to the change by then, each as the walks
inside have left it, are those of the code: every path to a body is listed once, behind all paths
that lead further. The loop that turns a program into packed code ends likewise, with the same
nesting and the operation of each command in its place. -/
theorem walks_are_recursive :
    (∀ (onBody : Packed → Packed) (c : Packed),
      (∀ fuel, Course.run (Walk.round id onBody) fuel (.start c) =
        if fuel ≤ c.unvisited then none
        else some (c.walk id onBody,
          c.innermostFirst.map fun entry => entry.2.mapBodies (Code.walk id onBody))) ∧
      c.walk id onBody = onBody (c.mapBodies (Code.walk id onBody)) ∧
      (∀ path body, (path, body) ∈ c.innermostFirst ↔ c.bodyAt? path = some body) ∧
      c.innermostFirst.Pairwise fun earlier later => ¬ earlier.1 <+: later.1) ∧
    ∀ p : Program,
      (∀ fuel, (Course.run (Walk.round Op.ofCommand id) fuel (.start p)).map Prod.fst =
        if fuel ≤ p.unvisited then none else some (Packed.ofProgram p)) ∧
      Packed.ofProgram p = p.map Op.ofCommand := by
  constructor
  · intro onBody c
    refine ⟨fun fuel => ?_, Code.walk_eq_onBody onBody c, fun _ _ => Code.mem_innermostFirst,
      Code.inward_innermostFirst⟩
    rw [Walk.run_start]
    simp only [Code.transformInside_eq_mapBodies]
  · intro p
    refine ⟨fun fuel => ?_, Code.walk_eq_map Op.ofCommand p⟩
    rw [Walk.run_start, apply_ite (Option.map Prod.fst)]
    rfl

end TapeLang
