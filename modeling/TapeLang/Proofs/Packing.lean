import Mathlib.Algebra.Ring.Int.Defs
import TapeLang.Proofs.Bodies
import TapeLang.Proofs.Passes

/-! What packing leaves to pack.

Packing goes over a body once. Additions and moves that follow one another in the body become one,
and moves that cancel out are dropped, after the additions in front of them were settled. So
additions meet in the packed body exactly where such moves alone stood between two of them
(`addsMeet_packFrom`), and nothing else is left: no two moves meet, and none goes nowhere
(`movesPacked_packFrom`). Packing once more finishes, since now no moves cancel out
(`pack_again`). -/
namespace TapeLang.Packed

/-- Two additions stand next to each other. -/
def AddsMeet (c : Packed) : Prop := ∃ m n : Int, c.HasRow [.add m, .add n]

/-- Moves that cancel out, and nothing else, stand between two additions. -/
def MovesCancel (c : Packed) : Prop :=
  ∃ (m : Int) (distances : List Int) (n : Int), distances ≠ [] ∧ distances.sum = 0 ∧
    c.HasRow (.add m :: (distances.map Op.move ++ [.add n]))

/-- A body starts with moves that lead back from a distance, and then an addition. -/
def LeadsBack (distance : Int) (c : Packed) : Prop :=
  ∃ (distances : List Int) (n : Int), distance + distances.sum = 0 ∧
    c.StartsWith (distances.map Op.move ++ [.add n])

variable {c rest body : Packed} {d e amount : Int}

/-! ### Reading a body from its start -/

@[simp] theorem not_leadsBack_nil : ¬ LeadsBack d .nil := by
  intro back
  obtain ⟨distances, n, -, start⟩ := back
  cases distances <;> simp at start

@[simp] theorem not_leadsBack_loop : ¬ LeadsBack d (.loop body rest) := by
  intro back
  obtain ⟨distances, n, -, start⟩ := back
  cases distances <;> simp at start

@[simp] theorem leadsBack_add : LeadsBack d (.leaf (.add amount) rest) ↔ d = 0 := by
  constructor
  · intro back
    obtain ⟨distances, n, sum, start⟩ := back
    cases distances with
    | nil => simpa using sum
    | cons e distances => simp at start
  · intro zero
    exact ⟨[], amount, by simpa using zero, by simp⟩

@[simp] theorem leadsBack_move :
    LeadsBack d (.leaf (.move e) rest) ↔ LeadsBack (d + e) rest := by
  constructor
  · intro back
    obtain ⟨distances, n, sum, start⟩ := back
    cases distances with
    | nil => simp at start
    | cons e' distances =>
      simp only [List.map_cons, List.cons_append, Code.startsWith_leaf, Op.move.injEq] at start
      obtain ⟨rfl, start⟩ := start
      exact ⟨distances, n, by rw [← sum, List.sum_cons, Int.add_assoc], start⟩
  · intro back
    obtain ⟨distances, n, sum, start⟩ := back
    exact ⟨e :: distances, n, by rw [← sum, List.sum_cons, Int.add_assoc], by simpa using start⟩

theorem not_leadsBack_leaf {op : Op} (noAdd : ∀ n, op ≠ .add n) (noMove : ∀ n, op ≠ .move n) :
    ¬ LeadsBack d (.leaf op rest) := by
  intro back
  obtain ⟨distances, n, -, start⟩ := back
  cases distances with
  | nil => exact noAdd n (Code.startsWith_leaf.1 start).1
  | cons e distances => exact noMove e (Code.startsWith_leaf.1 start).1

@[simp] theorem not_movesCancel_nil : ¬ MovesCancel .nil := by simp [MovesCancel]

@[simp] theorem movesCancel_loop : MovesCancel (.loop body rest) ↔ MovesCancel rest := by
  simp [MovesCancel]

theorem movesCancel_leaf {op : Op} (noAdd : ∀ n, op ≠ .add n) :
    MovesCancel (.leaf op rest) ↔ MovesCancel rest := by
  simp [MovesCancel, noAdd]

/-- Behind an addition, the moves that cancel out may stand right at the start. -/
theorem movesCancel_add :
    MovesCancel (.leaf (.add amount) c) ↔
      (∃ d rest, c = .leaf (.move d) rest ∧ LeadsBack d rest) ∨ MovesCancel c := by
  constructor
  · intro cancel
    obtain ⟨m, distances, n, some, sum, row⟩ := cancel
    rcases Code.hasRow_leaf.1 row with ⟨-, start⟩ | later
    · obtain ⟨d, distances, rfl⟩ := List.exists_cons_of_ne_nil some
      obtain ⟨rest, rfl⟩ := start
      exact .inl ⟨d, _, rfl, distances, n, by simpa using sum, rest, rfl⟩
    · exact .inr ⟨m, distances, n, some, sum, later⟩
  · intro h
    rcases h with ⟨d, rest, rfl, distances, n, sum, start⟩ | ⟨m, distances, n, some, sum, row⟩
    · refine ⟨amount, d :: distances, n, List.cons_ne_nil d distances, by simpa using sum, ?_⟩
      exact Code.hasRow_leaf.2 (.inl ⟨rfl, Code.startsWith_leaf.2 ⟨rfl, start⟩⟩)
    · exact ⟨m, distances, n, some, sum, Code.hasRow_leaf.2 (.inr row)⟩

@[simp] theorem not_addsMeet_nil : ¬ AddsMeet .nil := by simp [AddsMeet]

@[simp] theorem addsMeet_loop : AddsMeet (.loop body rest) ↔ AddsMeet rest := by simp [AddsMeet]

theorem addsMeet_leaf {op : Op} (noAdd : ∀ n, op ≠ .add n) :
    AddsMeet (.leaf op rest) ↔ AddsMeet rest := by
  simp [AddsMeet, noAdd]

theorem addsMeet_add :
    AddsMeet (.leaf (.add amount) c) ↔ (∃ n, c.StartsWith [.add n]) ∨ AddsMeet c := by
  simp [AddsMeet, exists_or]

/-! ### A packed body -/

/-- Behind additions a packed body starts with their sum. -/
theorem packFrom_adding (sum : Int) (c : Packed) :
    ∃ sum' rest, packFrom (.adding sum) c = .leaf (.add sum') rest := by
  generalize hr : Run.adding sum = run
  fun_induction packFrom run c generalizing sum with
  | case1 run =>
    cases hr
    exact ⟨sum, _, rfl⟩
  | case2 run body rest _ =>
    cases hr
    exact ⟨sum, _, rfl⟩
  | case3 sum' amount rest ih => exact ih (sum' + amount) rfl
  | case4 => cases hr
  | case5 run amount rest notAdding _ => exact absurd hr.symm (notAdding sum)
  | case6 run distance rest _ _ =>
    cases hr
    exact ⟨sum, _, rfl⟩
  | case7 run op rest _ _ _ _ _ =>
    cases hr
    exact ⟨sum, _, rfl⟩

theorem startsWith_closeOnto_moving {n : Int} :
    ((Run.moving d).closeOnto c).StartsWith [.add n] ↔ d = 0 ∧ c.StartsWith [.add n] := by
  rw [Run.closeOnto]
  by_cases zero : d = 0 <;> simp [zero]

/-- Behind moves a packed body starts with an addition if the moves up to one cancel out. -/
theorem startsWith_packFrom_moving :
    (∃ n, (packFrom (.moving d) c).StartsWith [.add n]) ↔ LeadsBack d c := by
  induction c generalizing d with
  | nil => simp [packFrom, startsWith_closeOnto_moving]
  | loop body rest => simp [packFrom, startsWith_closeOnto_moving]
  | leaf op rest ih =>
    cases op with
    | add amount =>
      obtain ⟨sum, rest', packed⟩ := packFrom_adding amount rest
      simp [packFrom, startsWith_closeOnto_moving, packed]
    | move e => simpa [packFrom] using ih
    | _ => simp [packFrom, startsWith_closeOnto_moving, not_leadsBack_leaf]

/-- Only additions can meet what follows them. -/
theorem addsMeet_closeOnto {run : Run}
    (apart : ∀ sum n, run = .adding sum → ¬ c.StartsWith [.add n]) :
    AddsMeet (run.closeOnto c) ↔ AddsMeet c := by
  cases run with
  | none => rfl
  | adding sum => simp [Run.closeOnto, addsMeet_add, apart sum]
  | moving sum =>
    rw [Run.closeOnto]
    split
    · rfl
    · exact addsMeet_leaf (by simp)

theorem movesCancel_standOnto {run : Run}
    (apart : ∀ sum d rest, run = .adding sum → c ≠ .leaf (.move d) rest) :
    MovesCancel (run.standOnto c) ↔ MovesCancel c := by
  cases run with
  | none => rfl
  | adding sum => simp [Run.standOnto, movesCancel_add, apart sum]
  | moving sum => exact movesCancel_leaf (by simp)

/-- **Additions meet in a packed body where moves between them cancelled out.** -/
theorem addsMeet_packFrom (run : Run) (c : Packed) :
    AddsMeet (packFrom run c) ↔ MovesCancel (run.standOnto c) := by
  fun_induction packFrom run c with
  | case1 run =>
    rw [addsMeet_closeOnto (by simp), movesCancel_standOnto (by simp)]
    simp
  | case2 run body rest ih =>
    rw [addsMeet_closeOnto (by simp), movesCancel_standOnto (by simp), addsMeet_loop,
      movesCancel_loop]
    exact ih
  | case3 sum amount rest ih =>
    refine ih.trans ?_
    simp [Run.standOnto, movesCancel_add]
  | case4 sum distance rest ih =>
    refine ih.trans ?_
    simp [Run.standOnto, movesCancel_leaf]
  | case5 run amount rest notAdding ih =>
    rw [addsMeet_closeOnto fun sum _ adding => absurd adding (notAdding sum),
      movesCancel_standOnto (by simp)]
    exact ih
  | case6 run distance rest notMoving ih =>
    cases run with
    | none => exact ih
    | adding sum =>
      -- The moves stand between two additions if they come to nothing.
      rw [Run.closeOnto, addsMeet_add, startsWith_packFrom_moving, Run.standOnto, movesCancel_add]
      refine or_congr ⟨fun back => ⟨distance, rest, rfl, back⟩, fun h => ?_⟩ ih
      obtain ⟨_, _, same, back⟩ := h
      cases same
      exact back
    | moving sum => exact absurd rfl (notMoving sum)
  | case7 run op rest _ _ noAdd noMove ih =>
    have noAdd : ∀ n, op ≠ .add n := noAdd
    have noMove : ∀ n, op ≠ .move n := noMove
    rw [addsMeet_closeOnto (by simp [noAdd]), movesCancel_standOnto (by simp [noMove]),
      addsMeet_leaf noAdd, movesCancel_leaf noAdd]
    exact ih

/-- The moves of a body are packed: no two of them meet, and none goes nowhere. -/
@[mk_iff]
structure MovesPacked (c : Packed) : Prop where
  apart : ∀ m n : Int, ¬ c.HasRow [.move m, .move n]
  moving : ¬ c.HasRow [.move 0]

theorem movesPacked_nil : MovesPacked .nil := ⟨by simp, by simp⟩

theorem movesPacked_loop : MovesPacked (.loop body rest) ↔ MovesPacked rest := by
  simp only [movesPacked_iff, Code.hasRow_loop]

theorem movesPacked_leaf {op : Op} (noMove : ∀ n, op ≠ .move n) :
    MovesPacked (.leaf op rest) ↔ MovesPacked rest := by
  simp only [movesPacked_iff, Code.hasRow_leaf, noMove, false_and, false_or]

theorem movesPacked_closeOnto {run : Run}
    (apart : ∀ sum n, run = .moving sum → ¬ c.StartsWith [.move n]) (moves : MovesPacked c) :
    MovesPacked (run.closeOnto c) := by
  cases run with
  | none => exact moves
  | adding sum => exact (movesPacked_leaf (by simp)).2 moves
  | moving sum =>
    rw [Run.closeOnto]
    split
    · exact moves
    · next nonzero =>
      exact ⟨by simp [moves.apart, apart sum], by simp [moves.moving, nonzero]⟩

theorem movesPacked_packFrom (run : Run) (c : Packed) : MovesPacked (packFrom run c) := by
  fun_induction packFrom run c with
  | case1 run => exact movesPacked_closeOnto (by simp) movesPacked_nil
  | case2 run body rest ih => exact movesPacked_closeOnto (by simp) (movesPacked_loop.2 ih)
  | case3 sum amount rest ih => exact ih
  | case4 sum distance rest ih => exact ih
  | case5 run amount rest _ ih =>
    obtain ⟨sum, rest', packed⟩ := packFrom_adding amount rest
    exact movesPacked_closeOnto (by simp [packed]) ih
  | case6 run distance rest notMoving ih =>
    exact movesPacked_closeOnto (fun sum _ moving => absurd moving (notMoving sum)) ih
  | case7 run op rest _ _ _ noMove ih =>
    have noMove : ∀ n, op ≠ .move n := noMove
    exact movesPacked_closeOnto (by simp [noMove]) ((movesPacked_leaf noMove).2 ih)

/-- Where no moves meet and none goes nowhere, none cancel out. -/
theorem MovesPacked.not_movesCancel (moves : MovesPacked c) : ¬ MovesCancel c := by
  intro cancel
  obtain ⟨m, distances, n, some, sum, row⟩ := cancel
  match distances, some with
  | [d], _ =>
    obtain rfl : d = 0 := by simpa using sum
    exact moves.moving (row.part [Op.add m] [Op.move 0] [Op.add n])
  | d :: e :: ds, _ =>
    have pair := row.part [Op.add m] [Op.move d, Op.move e] (ds.map Op.move ++ [Op.add n])
    exact moves.apart d e pair

/-! ### Packing once more -/

/-- There is nothing to pack in a body. -/
structure Tight (c : Packed) : Prop extends MovesPacked c where
  adds : ¬ AddsMeet c

theorem Tight.rest_of_loop (tight : Tight (.loop body rest)) : Tight rest where
  toMovesPacked := movesPacked_loop.1 tight.toMovesPacked
  adds meet := tight.adds (addsMeet_loop.2 meet)

theorem Tight.rest_of_leaf {op : Op} (tight : Tight (.leaf op rest)) : Tight rest where
  apart m n h := tight.apart m n (Code.hasRow_leaf.2 (.inr h))
  moving h := tight.moving (Code.hasRow_leaf.2 (.inr h))
  adds := fun ⟨m, n, h⟩ => tight.adds ⟨m, n, Code.hasRow_leaf.2 (.inr h)⟩

theorem Tight.of_standOnto {run : Run} (tight : Tight (run.standOnto c)) : Tight c := by
  cases run with
  | none => exact tight
  | adding sum => exact tight.rest_of_leaf
  | moving sum => exact tight.rest_of_leaf

theorem closeOnto_eq_standOnto {run : Run} (tight : Tight (run.standOnto c)) :
    run.closeOnto c = run.standOnto c := by
  cases run with
  | none => rfl
  | adding sum => rfl
  | moving sum =>
    have nonzero : sum ≠ 0 := fun zero => tight.moving (by simp [Run.standOnto, zero])
    rw [Run.closeOnto, if_neg nonzero, Run.standOnto]

theorem packFrom_eq_standOnto (run : Run) (tight : Tight (run.standOnto c)) :
    packFrom run c = run.standOnto c := by
  fun_induction packFrom run c with
  | case1 run => exact closeOnto_eq_standOnto tight
  | case2 run body rest ih =>
    rw [ih tight.of_standOnto.rest_of_loop]
    exact closeOnto_eq_standOnto tight
  | case3 sum amount rest => exact absurd ⟨sum, amount, by simp [Run.standOnto]⟩ tight.adds
  | case4 sum distance rest => exact absurd (by simp [Run.standOnto]) (tight.apart sum distance)
  | case5 run amount rest _ ih =>
    rw [ih tight.of_standOnto]
    exact closeOnto_eq_standOnto tight
  | case6 run distance rest _ ih =>
    rw [ih tight.of_standOnto]
    exact closeOnto_eq_standOnto tight
  | case7 run op rest _ _ _ _ ih =>
    rw [ih tight.of_standOnto.rest_of_leaf]
    exact closeOnto_eq_standOnto tight

/-- **Packing leaves a body alone exactly if there is nothing to pack in it.** -/
theorem packBody_eq_self_iff : packBody c = c ↔ Tight c := by
  constructor
  · intro same
    have moves : MovesPacked c := same ▸ movesPacked_packFrom .none c
    refine ⟨moves, fun meet => moves.not_movesCancel ?_⟩
    refine (addsMeet_packFrom .none c).1 ?_
    rw [← packBody, same]
    exact meet
  · exact packFrom_eq_standOnto .none

/-! ### Whole code -/

theorem innerBodies_closeOnto (run : Run) (c : Packed) :
    (run.closeOnto c).innerBodies = c.innerBodies := by
  cases run with
  | none => rfl
  | adding sum => rfl
  | moving sum =>
    rw [Run.closeOnto]
    split <;> rfl

theorem innerBodies_packFrom (run : Run) (c : Packed) :
    (packFrom run c).innerBodies = c.innerBodies := by
  fun_induction packFrom run c with
  | case1 run => exact innerBodies_closeOnto run .nil
  | case2 run body rest ih => rw [innerBodies_closeOnto, Code.innerBodies, ih, Code.innerBodies]
  | case3 sum amount rest ih => exact ih
  | case4 sum distance rest ih => exact ih
  | case5 run amount rest _ ih => rw [innerBodies_closeOnto, ih, Code.innerBodies]
  | case6 run distance rest _ ih => rw [innerBodies_closeOnto, ih, Code.innerBodies]
  | case7 run op rest _ _ _ _ ih =>
    rw [innerBodies_closeOnto, Code.innerBodies, ih, Code.innerBodies]

/-! ### Smaller amounts -/

theorem startsWith_add_reduceBody :
    (∃ n, (reduceBody c).StartsWith [.add n]) ↔ ∃ n, c.StartsWith [.add n] := by
  cases c with
  | nil => rfl
  | loop body rest => simp [reduceBody]
  | leaf op rest => cases op <;> simp [reduceBody]

theorem addsMeet_reduceBody : AddsMeet (reduceBody c) ↔ AddsMeet c := by
  fun_induction reduceBody c with
  | case1 => rfl
  | case2 body rest ih => rw [addsMeet_loop, addsMeet_loop, ih]
  | case3 amount rest ih => rw [addsMeet_add, addsMeet_add, startsWith_add_reduceBody, ih]
  | case4 op rest noAdd ih =>
    have noAdd : ∀ n, op ≠ .add n := noAdd
    rw [addsMeet_leaf noAdd, addsMeet_leaf noAdd, ih]

theorem startsWith_moves_reduceBody {distances : List Int} :
    (reduceBody c).StartsWith (distances.map Op.move) ↔ c.StartsWith (distances.map Op.move) := by
  induction distances generalizing c with
  | nil => simp
  | cons d distances ih =>
    cases c with
    | nil => rfl
    | loop body rest => simp [reduceBody]
    | leaf op rest => cases op <;> simp [reduceBody, ih]

theorem hasRow_moves_reduceBody (distances : List Int) :
    (reduceBody c).HasRow (.move d :: distances.map Op.move) ↔
      c.HasRow (.move d :: distances.map Op.move) := by
  fun_induction reduceBody c with
  | case1 => rfl
  | case2 body rest ih => simp [ih]
  | case3 amount rest ih => simp [ih]
  | case4 op rest _ ih => simp [ih, startsWith_moves_reduceBody]

theorem MovesPacked.reduceBody (moves : MovesPacked c) : MovesPacked (reduceBody c) where
  apart m n h := moves.apart m n ((hasRow_moves_reduceBody [n]).1 h)
  moving h := moves.moving ((hasRow_moves_reduceBody []).1 h)

theorem innerBodies_reduceBody (c : Packed) : (reduceBody c).innerBodies = c.innerBodies := by
  fun_induction reduceBody c with
  | case1 => rfl
  | case2 body rest ih => rw [Code.innerBodies, ih, Code.innerBodies]
  | case3 amount rest ih => exact ih
  | case4 op rest _ ih => exact ih

/-! ### Every body of packed code -/

theorem addsMeet_pack (c : Packed) : AddsMeet (Pass.pack.apply c) ↔ MovesCancel c := by
  obtain ⟨body, same, rows⟩ := Pass.pack.apply_eq_onBody c
  have cancel : MovesCancel body ↔ MovesCancel c := by simp only [MovesCancel, rows]
  rw [same]
  exact (addsMeet_packFrom .none body).trans cancel

theorem movesPacked_pack (c : Packed) : MovesPacked (Pass.pack.apply c) := by
  obtain ⟨body, same, -⟩ := Pass.pack.apply_eq_onBody c
  rw [same]
  exact movesPacked_packFrom .none body

theorem addsMeet_reduce (c : Packed) : AddsMeet (Pass.reduce.apply c) ↔ AddsMeet c := by
  obtain ⟨body, same, rows⟩ := Pass.reduce.apply_eq_onBody c
  have meet : AddsMeet body ↔ AddsMeet c := by simp only [AddsMeet, rows]
  rw [same]
  exact addsMeet_reduceBody.trans meet

theorem MovesPacked.reduce (moves : MovesPacked c) : MovesPacked (Pass.reduce.apply c) := by
  obtain ⟨body, same, rows⟩ := Pass.reduce.apply_eq_onBody c
  have moves' : MovesPacked body :=
    ⟨fun m n h => moves.apart m n ((rows _ _).1 h), fun h => moves.moving ((rows _ _).1 h)⟩
  rw [same]
  exact moves'.reduceBody

theorem innerBodies_pack (c : Packed) : (Pass.pack.onBody c).innerBodies = c.innerBodies :=
  innerBodies_packFrom .none c

theorem innerBodies_reduce (c : Packed) : (Pass.reduce.onBody c).innerBodies = c.innerBodies :=
  innerBodies_reduceBody c

theorem optimize_one (p : Program) :
    optimize 1 p = Pass.reduce.apply (Pass.pack.apply (optimize 0 p)) := rfl

theorem movesPacked_of_mem_optimize_one {p : Program} (mem : body ∈ (optimize 1 p).bodies) :
    MovesPacked body := by
  rw [optimize_one, Pass.bodies_apply innerBodies_reduce, Pass.bodies_apply innerBodies_pack,
    List.map_map, List.mem_map] at mem
  obtain ⟨source, -, rfl⟩ := mem
  exact (movesPacked_pack source).reduce

/-- The bodies of packed code of level one are tight after they were packed again. -/
theorem tight_of_mem_pack {p : Program}
    (mem : body ∈ (Pass.pack.apply (optimize 1 p)).bodies) : Tight body := by
  rw [Pass.bodies_apply innerBodies_pack, List.mem_map] at mem
  obtain ⟨source, mem, rfl⟩ := mem
  refine ⟨movesPacked_pack source, fun meet => ?_⟩
  exact (movesPacked_of_mem_optimize_one mem).not_movesCancel ((addsMeet_pack source).1 meet)

/-- **What one packing leaves to pack.** Packing code of level one once more changes nothing exactly
if additions meet in none of its bodies. They meet in one exactly if nothing but moves that cancel
out stood between two additions in a body of the code that was packed. A second packing always
leaves nothing to pack. -/
theorem pack_again (p : Program) :
    (Pass.pack.apply (optimize 1 p) = optimize 1 p ↔
        ∀ body ∈ (optimize 1 p).bodies, ¬ AddsMeet body) ∧
      ((∃ body ∈ (optimize 1 p).bodies, AddsMeet body) ↔
        ∃ body ∈ (optimize 0 p).bodies, MovesCancel body) ∧
      (∀ body ∈ (Pass.pack.apply (optimize 1 p)).bodies, ¬ AddsMeet body) ∧
      Pass.pack.apply (Pass.pack.apply (optimize 1 p)) = Pass.pack.apply (optimize 1 p) := by
  refine ⟨?_, ?_, fun body mem => (tight_of_mem_pack mem).adds, ?_⟩
  · rw [Pass.apply_eq_self_iff innerBodies_pack]
    refine forall₂_congr fun body mem => packBody_eq_self_iff.trans ?_
    exact ⟨Tight.adds, fun apart => ⟨movesPacked_of_mem_optimize_one mem, apart⟩⟩
  · rw [optimize_one, Pass.exists_mem_bodies_apply innerBodies_reduce,
      Pass.exists_mem_bodies_apply innerBodies_pack]
    simp only [addsMeet_reduce, addsMeet_pack]
  · rw [Pass.apply_eq_self_iff innerBodies_pack]
    exact fun body mem => packBody_eq_self_iff.2 (tight_of_mem_pack mem)

/-- A step aside and back between two additions is dropped after both of them were settled. -/
theorem addsMeet_stepAside :
    let p : Program := .leaf .increment <| .leaf .advance <| .leaf .retreat <|
      .leaf .increment .nil
    optimize 1 p = .leaf (.add 1) (.leaf (.add 1) .nil) ∧ AddsMeet (optimize 1 p) ∧
      Pass.pack.apply (optimize 1 p) = .leaf (.add 2) .nil := by
  intro p
  have code : optimize 1 p = .leaf (.add 1) (.leaf (.add 1) .nil) := optimize_eq 1 p
  rw [code, Pass.apply_eq_transform]
  exact ⟨rfl, ⟨1, 1, by simp⟩, rfl⟩

end TapeLang.Packed
