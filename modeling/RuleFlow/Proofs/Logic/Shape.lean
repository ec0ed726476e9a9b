import RuleFlow.Proofs.Logic.Position

/-!
# Shapes of trees

The shape of a tree says where its groups and its leaves are, and nothing of the comparisons and the
combinators.  As long as no group is empty, it can be told from the index paths alone, and these
from the shape (`Logic.shape_eq_iff`).
-/

namespace RuleFlow

/-- A tree without contents. -/
inductive Shape where
  | leaf
  | group (children : List Shape)

namespace Logic

mutual

/-- The shape of a tree. -/
def shape : Logic → Shape
  | .leaf _ => .leaf
  | .group _ children => .group (shapes children)

/-- The shapes of a list of trees. -/
def shapes : List Logic → List Shape
  | [] => []
  | t :: ts => t.shape :: shapes ts

end

@[simp] theorem length_shapes (ts : List Logic) : (shapes ts).length = ts.length := by
  induction ts with
  | nil => rfl
  | cons t ts ih => rw [shapes, List.length_cons, ih, List.length_cons]

/-- Lists of the same shapes are of one length. -/
theorem length_eq_of_shapes_eq {ts ts' : List Logic} (h : shapes ts = shapes ts') :
    ts.length = ts'.length := by
  rw [← length_shapes ts, h, length_shapes]

/-! ## Paths of a shape -/

theorem map_fst_positionsFrom_cons (index : Nat) (t : Logic) (ts : List Logic) :
    (positionsFrom index (t :: ts)).map Prod.fst =
      t.paths.map (index :: ·) ++ (positionsFrom (index + 1) ts).map Prod.fst := by
  rw [positionsFrom, List.map_append, paths, List.map_map, List.map_map]
  rfl

mutual

/-- Trees of one shape have the same paths. -/
theorem paths_eq_of_shape_eq : ∀ {t t' : Logic}, t.shape = t'.shape → t.paths = t'.paths
  | .leaf _, .leaf _, _ => rfl
  | .group .., .group .., h =>
    congrArg (List.cons []) (pathsFrom_eq_of_shapes_eq 0 (Shape.group.inj h))
  | .leaf _, .group .., h => nomatch h
  | .group .., .leaf _, h => nomatch h

theorem pathsFrom_eq_of_shapes_eq : ∀ (index : Nat) {ts ts' : List Logic}, shapes ts = shapes ts' →
    (positionsFrom index ts).map Prod.fst = (positionsFrom index ts').map Prod.fst
  | _, [], [], _ => rfl
  | index, t :: ts, t' :: ts', h => by
    have hcons := List.cons.inj h
    rw [map_fst_positionsFrom_cons, map_fst_positionsFrom_cons, paths_eq_of_shape_eq hcons.1,
      pathsFrom_eq_of_shapes_eq (index + 1) hcons.2]
  | _, [], _ :: _, h => nomatch h
  | _, _ :: _, [], h => nomatch h

end

/-! ## The shape of paths -/

/-- A group that is not empty can be entered, and a leaf cannot. -/
theorem isSome_subtree?_zero (kind : Combinator) {children : List Logic} (h : children ≠ []) :
    ((group kind children).subtree? [0]).isSome := by
  cases children with
  | nil => exact absurd rfl h
  | cons t ts =>
    rw [subtree?_group_cons, List.getElem?_cons_zero, Option.bind_some, subtree?_nil,
      Option.isSome_some]

mutual

/-- Trees in which the same paths lead somewhere have one shape. -/
theorem shape_eq_of_subtree? : ∀ {t t' : Logic}, t.NoEmptyGroup → t'.NoEmptyGroup →
    (∀ p, (t.subtree? p).isSome = (t'.subtree? p).isSome) → t.shape = t'.shape
  | .leaf c, .leaf c', _, _, _ => rfl
  | .group kind children, .group kind' children', ht, ht', h => by
    rw [shape, shape, shapes_eq_of_subtree? (noEmptyGroup_group.mp ht).2
      (noEmptyGroup_group.mp ht').2 fun i p => by simpa [subtree?_group_cons] using h (i :: p)]
  -- only a group can be entered
  | .leaf c, .group kind children, _, ht', h => by
    have hsome := isSome_subtree?_zero kind (noEmptyGroup_group.mp ht').1
    rw [← h [0]] at hsome
    cases hsome
  | .group kind children, .leaf c, ht, _, h => by
    have hsome := isSome_subtree?_zero kind (noEmptyGroup_group.mp ht).1
    rw [h [0]] at hsome
    cases hsome

/-- If the same paths lead to subtrees of two lists, the lists have the same shapes. -/
theorem shapes_eq_of_subtree? : ∀ {ts ts' : List Logic}, (∀ t ∈ ts, t.NoEmptyGroup) →
    (∀ t ∈ ts', t.NoEmptyGroup) →
    (∀ (i : Nat) p, (ts[i]?.bind (·.subtree? p)).isSome = (ts'[i]?.bind (·.subtree? p)).isSome) →
      shapes ts = shapes ts'
  | [], [], _, _, _ => rfl
  | t :: ts, t' :: ts', ht, ht', h => by
    rw [List.forall_mem_cons] at ht ht'
    rw [shapes, shapes, shape_eq_of_subtree? ht.1 ht'.1 fun p => h 0 p,
      shapes_eq_of_subtree? ht.2 ht'.2 fun i p => by simpa using h (i + 1) p]
  | [], t :: ts, _, _, h => by simpa using h 0 []
  | t :: ts, [], _, _, h => by simpa using h 0 []

end

/-- Trees without empty groups have the same shape exactly if they have the same paths. -/
theorem shape_eq_iff {t t' : Logic} (ht : t.NoEmptyGroup) (ht' : t'.NoEmptyGroup) :
    t.shape = t'.shape ↔ t.paths = t'.paths := by
  refine ⟨paths_eq_of_shape_eq, fun h => shape_eq_of_subtree? ht ht' fun p => ?_⟩
  rw [Bool.eq_iff_iff, ← mem_paths, ← mem_paths, h]

/-- An empty group cannot be told from a leaf by its paths. -/
example (c : Condition) (kind : Combinator) : (group kind []).paths = (leaf c).paths := rfl

end Logic

end RuleFlow
