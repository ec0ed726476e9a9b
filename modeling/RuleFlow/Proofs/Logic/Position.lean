import RuleFlow.Logic.Normal
import Mathlib.Data.List.Lex
import Mathlib.Data.List.Sort

/-!
# Positions in a condition tree

A place in a tree is named by its index path: the indices of the children taken on the way there
from the root.  `subtree?` looks a path up, and `positions` lists all paths with their subtrees in
document order, which is the lexicographic order of the paths.

The two agree (`mem_positions`), and the list is strictly increasing (`paths_pairwise_lt`), so no
path occurs twice.  `rank` is the place of a path among the paths of its length.
-/

namespace RuleFlow.Logic

/-- The subtree at an index path. -/
def subtree? : Logic → List Nat → Option Logic
  | t, [] => some t
  | .leaf _, _ :: _ => none
  | .group _ children, i :: p =>
    match children[i]? with
    | some t => t.subtree? p
    | none => none

mutual

/-- The index paths of a tree with the subtrees there, in document order. -/
def positions : Logic → List (List Nat × Logic)
  | .leaf c => [([], .leaf c)]
  | .group kind children => ([], .group kind children) :: positionsFrom 0 children

/-- The positions in the children of a group from an index on. -/
def positionsFrom (index : Nat) : List Logic → List (List Nat × Logic)
  | [] => []
  | t :: ts => t.positions.map (fun x => (index :: x.1, x.2)) ++ positionsFrom (index + 1) ts

end

/-- The index paths of a tree, in document order. -/
def paths (t : Logic) : List (List Nat) := t.positions.map Prod.fst

/-- How many index paths of the same length stand before an index path in document order. -/
def rank (t : Logic) (p : List Nat) : Nat :=
  t.paths.countP fun q => decide (q.length = p.length ∧ q < p)

/-! ## Looking up -/

@[simp] theorem subtree?_nil (t : Logic) : t.subtree? [] = some t := by
  cases t <;> rfl

@[simp] theorem subtree?_leaf_cons (c : Condition) (i : Nat) (p : List Nat) :
    (leaf c).subtree? (i :: p) = none := rfl

theorem subtree?_group_cons (kind : Combinator) (children : List Logic) (i : Nat) (p : List Nat) :
    (group kind children).subtree? (i :: p) = children[i]?.bind (·.subtree? p) := by
  rw [subtree?]
  cases children[i]? <;> rfl

/-- A path through a subtree goes on in the subtree. -/
theorem subtree?_append (t : Logic) (p q : List Nat) :
    t.subtree? (p ++ q) = (t.subtree? p).bind (·.subtree? q) := by
  induction p generalizing t with
  | nil => simp
  | cons i p ih =>
    cases t with
    | leaf c => rfl
    | group kind children =>
      rw [List.cons_append, subtree?_group_cons, subtree?_group_cons]
      cases children[i]? with
      | none => rfl
      | some t => exact ih t

/-- One step below a position: a child of the group there. -/
theorem subtree?_concat {t : Logic} {p : List Nat} {i : Nat} {s : Logic} :
    t.subtree? (p ++ [i]) = some s ↔
      ∃ kind children, t.subtree? p = some (group kind children) ∧ children[i]? = some s := by
  rw [subtree?_append]
  constructor
  · intro h
    obtain ⟨u, hu, hs⟩ := Option.bind_eq_some_iff.mp h
    cases u with
    | leaf c => simp at hs
    | group kind children =>
      refine ⟨kind, children, hu, ?_⟩
      rw [subtree?_group_cons] at hs
      simpa using hs
  · rintro ⟨kind, children, hp, hs⟩
    rw [hp, Option.bind_some, subtree?_group_cons, hs]
    simp

/-! ## The list of positions -/

mutual

/-- The positions are the paths that can be looked up, with what is found there. -/
theorem mem_positions : ∀ {t : Logic} {p : List Nat} {s : Logic},
    (p, s) ∈ t.positions ↔ t.subtree? p = some s
  | .leaf c, [], s => by simp [positions, eq_comm]
  | .leaf c, i :: p, s => by simp [positions]
  | .group kind children, [], s => by
    have h : ([], s) ∉ positionsFrom 0 children := fun hs => by
      obtain ⟨j, q, t, hq, -⟩ := mem_positionsFrom.mp hs
      cases hq
    simp [positions, h, eq_comm]
  | .group kind children, i :: p, s => by
    rw [subtree?_group_cons, positions, List.mem_cons, mem_positionsFrom,
      Option.bind_eq_some_iff]
    constructor
    · rintro (h | ⟨j, q, t, hq, ht, hs⟩)
      · cases h
      · rw [Nat.zero_add] at hq
        cases hq
        exact ⟨t, ht, hs⟩
    · rintro ⟨t, ht, hs⟩
      exact .inr ⟨i, p, t, by rw [Nat.zero_add], ht, hs⟩

/-- The positions among some children are those of each child behind its index. -/
theorem mem_positionsFrom : ∀ {ts : List Logic} {index : Nat} {p : List Nat} {s : Logic},
    (p, s) ∈ positionsFrom index ts ↔
      ∃ j q t, p = (index + j) :: q ∧ ts[j]? = some t ∧ t.subtree? q = some s
  | [], index, p, s => by simp [positionsFrom]
  | t :: ts, index, p, s => by
    rw [positionsFrom, List.mem_append, List.mem_map, mem_positionsFrom]
    constructor
    · rintro (⟨⟨q, u⟩, hq, h⟩ | ⟨j, q, u, rfl, hu, hs⟩)
      · cases h
        exact ⟨0, q, t, rfl, rfl, mem_positions.mp hq⟩
      · exact ⟨j + 1, q, u, by rw [Nat.add_assoc, Nat.add_comm 1], hu, hs⟩
    · rintro ⟨j, q, u, rfl, hu, hs⟩
      cases j with
      | zero =>
        cases hu
        exact .inl ⟨(q, s), mem_positions.mpr hs, rfl⟩
      | succ j => exact .inr ⟨j, q, u, by rw [Nat.add_assoc, Nat.add_comm 1], hu, hs⟩

end

theorem mem_paths {t : Logic} {p : List Nat} : p ∈ t.paths ↔ (t.subtree? p).isSome := by
  rw [paths, List.mem_map, Option.isSome_iff_exists]
  constructor
  · rintro ⟨⟨q, s⟩, h, rfl⟩
    exact ⟨s, mem_positions.mp h⟩
  · rintro ⟨s, h⟩
    exact ⟨(p, s), mem_positions.mpr h, rfl⟩

mutual

/-- Document order is the lexicographic order of the index paths. -/
theorem paths_pairwise_lt : ∀ (t : Logic), t.paths.Pairwise (· < ·)
  | .leaf c => List.pairwise_singleton ..
  | .group kind children => by
    rw [paths, positions, List.map_cons, List.pairwise_cons]
    refine ⟨fun p hp => ?_, pathsFrom_pairwise_lt 0 children⟩
    obtain ⟨⟨q, s⟩, hq, rfl⟩ := List.mem_map.mp hp
    obtain ⟨j, r, t, rfl, -⟩ := mem_positionsFrom.mp hq
    exact List.nil_lt_cons ..

/-- The index paths of a list of trees are ascending, as those of each tree are. -/
theorem pathsFrom_pairwise_lt : ∀ (index : Nat) (ts : List Logic),
    ((positionsFrom index ts).map Prod.fst).Pairwise (· < ·)
  | _, [] => List.Pairwise.nil
  | index, t :: ts => by
    rw [positionsFrom, List.map_append, List.pairwise_append]
    refine ⟨?_, pathsFrom_pairwise_lt (index + 1) ts, ?_⟩
    · have h := paths_pairwise_lt t
      rw [paths, List.pairwise_map] at h
      rw [List.map_map, List.pairwise_map]
      exact h.imp fun hlt => List.cons_lt_cons_iff.mpr (.inr ⟨rfl, hlt⟩)
    · intro p hp q hq
      obtain ⟨⟨p', s⟩, hp', rfl⟩ := List.mem_map.mp hp
      obtain ⟨⟨q', s'⟩, hq', rfl⟩ := List.mem_map.mp hq
      obtain ⟨x, -, hx⟩ := List.mem_map.mp hp'
      cases hx
      obtain ⟨j, r, u, rfl, -⟩ := mem_positionsFrom.mp hq'
      exact List.cons_lt_cons_iff.mpr (.inl (by omega))

end

/-- No index path comes twice. -/
theorem paths_nodup (t : Logic) : t.paths.Nodup :=
  (paths_pairwise_lt t).imp fun h he => absurd (he ▸ h) (List.lt_irrefl _)

/-! ## Levels -/

/-- The index paths of a length, in document order. -/
def level (t : Logic) (k : Nat) : List (List Nat) := t.paths.filter (·.length = k)

/-- The index paths one step below a path, in document order. -/
def childPaths (t : Logic) (p : List Nat) : List (List Nat) :=
  t.paths.filter fun q => q ≠ [] ∧ q.dropLast = p

@[simp] theorem mem_level {t : Logic} {k : Nat} {p : List Nat} :
    p ∈ t.level k ↔ p ∈ t.paths ∧ p.length = k := by simp [level]

@[simp] theorem mem_childPaths {t : Logic} {p q : List Nat} :
    q ∈ t.childPaths p ↔ q ∈ t.paths ∧ q ≠ [] ∧ q.dropLast = p := by simp [childPaths]

/-- Children are one level below. -/
theorem length_of_mem_childPaths {t : Logic} {p q : List Nat} (hq : q ∈ t.childPaths p) :
    q.length = p.length + 1 := by
  obtain ⟨-, hne, rfl⟩ := mem_childPaths.mp hq
  have := List.length_pos_iff.mpr hne
  rw [List.length_dropLast]
  omega

theorem level_pairwise_lt (t : Logic) (k : Nat) : (t.level k).Pairwise (· < ·) :=
  (paths_pairwise_lt t).filter _

theorem childPaths_pairwise_lt (t : Logic) (p : List Nat) : (t.childPaths p).Pairwise (· < ·) :=
  (paths_pairwise_lt t).filter _

/-- What goes on from a path comes before what goes on from a later path of the same length. -/
theorem append_lt_append_of_length_eq {α : Type*} [LT α] : ∀ {p q : List α}, p < q →
    p.length = q.length → ∀ r r', p ++ r < q ++ r'
  | [], [], h, _, _, _ => absurd h (List.not_lt_nil [])
  | i :: p, j :: q, h, hlen, r, r' => by
    rcases List.cons_lt_cons_iff.mp h with hij | ⟨rfl, hlt⟩
    · exact List.cons_lt_cons_iff.mpr (.inl hij)
    · exact List.cons_lt_cons_iff.mpr
        (.inr ⟨rfl, append_lt_append_of_length_eq hlt (Nat.succ.inj hlen) r r'⟩)

/-- The parent of a position is a position. -/
theorem dropLast_mem_paths {t : Logic} {p : List Nat} (h : p ∈ t.paths) (hne : p ≠ []) :
    p.dropLast ∈ t.paths := by
  rw [mem_paths, Option.isSome_iff_exists] at h ⊢
  obtain ⟨s, hs⟩ := h
  rw [← List.dropLast_append_getLast hne] at hs
  obtain ⟨kind, children, hp, -⟩ := subtree?_concat.mp hs
  exact ⟨_, hp⟩

/-- The children of a level, one parent after the other, are the next level. -/
theorem flatMap_childPaths_level (t : Logic) (k : Nat) :
    (t.level k).flatMap t.childPaths = t.level (k + 1) := by
  have hsorted : ((t.level k).flatMap t.childPaths).Pairwise (· < ·) := by
    rw [List.pairwise_flatMap]
    refine ⟨fun p _ => childPaths_pairwise_lt t p, ?_⟩
    refine (level_pairwise_lt t k).imp_of_mem fun {p q} hp hq hlt x hx y hy => ?_
    obtain ⟨-, hxne, rfl⟩ := mem_childPaths.mp hx
    obtain ⟨-, hyne, rfl⟩ := mem_childPaths.mp hy
    have hlen := (mem_level.mp hp).2.trans (mem_level.mp hq).2.symm
    rw [← List.dropLast_append_getLast hxne, ← List.dropLast_append_getLast hyne]
    exact append_lt_append_of_length_eq hlt hlen _ _
  refine hsorted.eq_of_mem_iff (level_pairwise_lt t (k + 1)) fun x => ?_
  rw [List.mem_flatMap, mem_level]
  constructor
  · rintro ⟨p, hp, hx⟩
    rw [length_of_mem_childPaths hx, (mem_level.mp hp).2]
    exact ⟨(mem_childPaths.mp hx).1, rfl⟩
  · rintro ⟨hmem, hlen⟩
    have hne : x ≠ [] := List.length_pos_iff.mp (by omega)
    refine ⟨x.dropLast, mem_level.mpr ⟨dropLast_mem_paths hmem hne, ?_⟩,
      mem_childPaths.mpr ⟨hmem, hne, rfl⟩⟩
    rw [List.length_dropLast]
    omega

/-- The root is alone on its level. -/
theorem level_zero (t : Logic) : t.level 0 = [[]] := by
  refine (level_pairwise_lt t 0).eq_of_mem_iff (List.pairwise_singleton ..) fun p => ?_
  rw [mem_level, List.length_eq_zero_iff, List.mem_singleton, and_iff_right_iff_imp]
  rintro rfl
  rw [mem_paths, subtree?_nil]
  rfl

/-- In a strictly increasing list an item stands after the smaller ones. -/
theorem idxOf_eq_countP_lt {l : List (List Nat)} (hl : l.Pairwise (· < ·)) {p : List Nat}
    (hp : p ∈ l) : l.idxOf p = l.countP (· < p) := by
  induction l with
  | nil => cases hp
  | cons q l ih =>
    obtain ⟨hq, hl⟩ := List.pairwise_cons.mp hl
    rw [List.countP_cons]
    rcases List.mem_cons.mp hp with rfl | hp
    · have hzero : l.countP (· < p) = 0 := List.countP_eq_zero.mpr fun r hr => by
        simpa only [decide_eq_true_eq] using List.lt_asymm (hq r hr)
      rw [List.idxOf_cons_self, hzero]
      simp
    · have hne : q ≠ p := fun he => List.lt_irrefl p (he ▸ hq p hp)
      rw [List.idxOf_cons_ne _ hne, ih hl hp]
      simp [hq p hp]

/-- The rank of a path is its place in its level. -/
theorem idxOf_level {t : Logic} {p : List Nat} (hp : p ∈ t.paths) :
    (t.level p.length).idxOf p = t.rank p := by
  rw [idxOf_eq_countP_lt (level_pairwise_lt t _) (mem_level.mpr ⟨hp, rfl⟩), level,
    List.countP_filter, rank]
  congr 1
  funext q
  rw [Bool.decide_and, Bool.and_comm]

theorem lt_of_idxOf_lt {l : List (List Nat)} (hl : l.Pairwise (· < ·)) {p q : List Nat}
    (hq : q ∈ l) (h : l.idxOf p < l.idxOf q) : p < q := by
  have hq' := List.idxOf_lt_length_iff.mpr hq
  have hlt := List.pairwise_iff_getElem.mp hl _ _ (Nat.lt_trans h hq') hq' h
  rwa [List.getElem_idxOf, List.getElem_idxOf] at hlt

/-- Ranks tell the document order of paths of the same length. -/
theorem rank_lt_rank_iff {t : Logic} {p q : List Nat} (hp : p ∈ t.paths) (hq : q ∈ t.paths)
    (hlen : p.length = q.length) : t.rank p < t.rank q ↔ p < q := by
  have hsorted := level_pairwise_lt t q.length
  have hp' : p ∈ t.level q.length := mem_level.mpr ⟨hp, hlen⟩
  have hq' : q ∈ t.level q.length := mem_level.mpr ⟨hq, rfl⟩
  rw [← idxOf_level hp, ← idxOf_level hq, hlen]
  constructor
  · exact lt_of_idxOf_lt hsorted hq'
  · intro hpq
    by_contra hnot
    rcases Nat.lt_or_eq_of_le (Nat.le_of_not_lt hnot) with hlt | heq
    · exact List.lt_asymm hpq (lt_of_idxOf_lt hsorted hp' hlt)
    · rw [List.idxOf_inj hq'] at heq
      exact List.lt_irrefl p (heq ▸ hpq)

/-! ## Depth -/

theorem depth_le_depthOfAll {t : Logic} {ts : List Logic} (h : t ∈ ts) :
    t.depth ≤ depthOfAll ts := by
  induction ts with
  | nil => cases h
  | cons u us ih =>
    rw [depthOfAll]
    rcases List.mem_cons.mp h with rfl | h
    · exact Nat.le_max_left ..
    · exact Nat.le_trans (ih h) (Nat.le_max_right ..)

/-- A leaf has depth one, and nothing is less deep. -/
theorem depth_pos (t : Logic) : 0 < t.depth := by
  cases t <;> rw [depth] <;> omega

/-- A path leads as many levels down as it is long. -/
theorem length_add_depth_le {t s : Logic} {p : List Nat} (h : t.subtree? p = some s) :
    p.length + s.depth ≤ t.depth := by
  induction p generalizing t with
  | nil =>
    rw [subtree?_nil] at h
    cases h
    simp
  | cons i p ih =>
    cases t with
    | leaf c => cases h
    | group kind children =>
      rw [subtree?_group_cons] at h
      obtain ⟨u, hu, hs⟩ := Option.bind_eq_some_iff.mp h
      have hle := ih hs
      have hdepth := depth_le_depthOfAll (List.mem_of_getElem? hu)
      rw [depth, List.length_cons]
      omega

mutual

/-- Every level of a tree has a position. -/
theorem depth_le_length_positions : ∀ t : Logic, t.depth ≤ t.positions.length
  | .leaf c => Nat.le_refl 1
  | .group kind children => by
    have := depthOfAll_le_length_positionsFrom 0 children
    rw [depth, positions, List.length_cons]
    omega

theorem depthOfAll_le_length_positionsFrom : ∀ (index : Nat) (ts : List Logic),
    depthOfAll ts ≤ (positionsFrom index ts).length
  | _, [] => Nat.le_refl 0
  | index, t :: ts => by
    have ht := depth_le_length_positions t
    have hts := depthOfAll_le_length_positionsFrom (index + 1) ts
    rw [depthOfAll, positionsFrom, List.length_append, List.length_map]
    omega

end

/-! ## Trees without empty groups -/

/-- Every group of the tree has a child. -/
def NoEmptyGroup (t : Logic) : Prop := ∀ p kind, t.subtree? p ≠ some (group kind [])

theorem noEmptyGroup_leaf (c : Condition) : (leaf c).NoEmptyGroup := by
  intro p kind h
  cases p <;> cases h

/-- A group must have a child, and its children no empty groups. -/
theorem noEmptyGroup_group {kind : Combinator} {children : List Logic} :
    (group kind children).NoEmptyGroup ↔ children ≠ [] ∧ ∀ t ∈ children, t.NoEmptyGroup := by
  constructor
  · intro h
    refine ⟨fun he => h [] kind (by rw [he]; exact subtree?_nil _), fun t ht p k hp => ?_⟩
    obtain ⟨i, hi⟩ := List.mem_iff_getElem?.mp ht
    exact h (i :: p) k (by rw [subtree?_group_cons, hi]; exact hp)
  · rintro ⟨hne, hall⟩ p k h
    cases p with
    | nil =>
      cases h
      exact hne rfl
    | cons i p =>
      rw [subtree?_group_cons] at h
      obtain ⟨t, ht, hp⟩ := Option.bind_eq_some_iff.mp h
      exact hall t (List.mem_of_getElem? ht) p k hp

/-- Subtrees of a tree without empty groups have none either. -/
theorem noEmptyGroup_subtree? {t s : Logic} {p : List Nat} (ht : t.NoEmptyGroup)
    (hp : t.subtree? p = some s) : s.NoEmptyGroup := by
  intro q kind hq
  refine ht (p ++ q) kind ?_
  rw [subtree?_append, hp, Option.bind_some, hq]

mutual

/-- Normalizing leaves no empty group. -/
theorem noEmptyGroup_normalize : ∀ {t t' : Logic}, t.normalize = some t' → t'.NoEmptyGroup
  | .leaf c, _, h => by
    cases h
    exact noEmptyGroup_leaf c
  | .group kind children, t', h => by
    rw [normalize] at h
    cases hall : normalizeAll children with
    | nil => simp [hall] at h
    | cons u us =>
      simp only [hall, Option.some.injEq] at h
      subst h
      exact noEmptyGroup_group.mpr
        ⟨List.cons_ne_nil u us, fun t ht => noEmptyGroup_normalizeAll (hall ▸ ht)⟩

theorem noEmptyGroup_normalizeAll : ∀ {ts : List Logic} {t : Logic},
    t ∈ normalizeAll ts → t.NoEmptyGroup
  | u :: us, t, h => by
    rw [normalizeAll] at h
    cases hu : u.normalize with
    | none => exact noEmptyGroup_normalizeAll (by simpa [hu] using h)
    | some v =>
      rw [hu] at h
      rcases List.mem_cons.mp h with rfl | h
      · exact noEmptyGroup_normalize hu
      · exact noEmptyGroup_normalizeAll h

end

theorem mem_conditionsOfAll {ts : List Logic} {c : Condition} :
    c ∈ conditionsOfAll ts ↔ ∃ t ∈ ts, c ∈ t.conditions := by
  induction ts with
  | nil => simp [conditionsOfAll]
  | cons t ts ih => simp [conditionsOfAll, ih]

mutual

/-- A tree keeps its comparisons, and one that vanishes has none. -/
theorem conditions_normalize : ∀ t : Logic, t.normalize.elim [] conditions = t.conditions
  | .leaf c => rfl
  | .group kind children => by
    rw [normalize, conditions, ← conditionsOfAll_normalizeAll children]
    cases normalizeAll children <;> rfl

theorem conditionsOfAll_normalizeAll : ∀ ts : List Logic,
    conditionsOfAll (normalizeAll ts) = conditionsOfAll ts
  | [] => rfl
  | t :: ts => by
    rw [normalizeAll, conditionsOfAll, ← conditions_normalize t, ← conditionsOfAll_normalizeAll ts]
    cases t.normalize <;> rfl

end

/-- Normalizing keeps the comparisons in their order. -/
theorem conditions_of_normalize {t s : Logic} (h : t.normalize = some s) :
    s.conditions = t.conditions := by
  rw [← conditions_normalize t, h]
  rfl

mutual

/-- The lowest level of a tree without empty groups has a leaf. -/
theorem exists_leaf_at_depth : ∀ {t : Logic}, t.NoEmptyGroup →
    ∃ p c, t.subtree? p = some (leaf c) ∧ p.length + 1 = t.depth
  | .leaf c, _ => ⟨[], c, subtree?_nil _, rfl⟩
  | .group kind children, h => by
    obtain ⟨hne, hall⟩ := noEmptyGroup_group.mp h
    obtain ⟨i, p, c, hp, hlen⟩ := exists_leaf_at_depthOfAll hne hall
    exact ⟨i :: p, c, by rw [subtree?_group_cons]; exact hp, by
      rw [depth, List.length_cons]; omega⟩

/-- The deepest of some trees has a leaf at the common depth. -/
theorem exists_leaf_at_depthOfAll : ∀ {ts : List Logic}, ts ≠ [] → (∀ t ∈ ts, t.NoEmptyGroup) →
    ∃ (i : Nat) (p : List Nat) (c : Condition),
      ts[i]?.bind (·.subtree? p) = some (leaf c) ∧ p.length + 1 = depthOfAll ts
  | t :: ts, _, hall => by
    by_cases hdeep : ts ≠ [] ∧ t.depth ≤ depthOfAll ts
    · obtain ⟨i, p, c, hp, hlen⟩ := exists_leaf_at_depthOfAll hdeep.1
        fun u hu => hall u (List.mem_cons_of_mem t hu)
      exact ⟨i + 1, p, c, hp, by rw [depthOfAll, Nat.max_eq_right hdeep.2]; exact hlen⟩
    · obtain ⟨p, c, hp, hlen⟩ := exists_leaf_at_depth (hall t List.mem_cons_self)
      refine ⟨0, p, c, hp, ?_⟩
      rw [depthOfAll, hlen, eq_comm, Nat.max_eq_left]
      rcases Decidable.em (ts = []) with rfl | hne
      · exact Nat.zero_le _
      · exact Nat.le_of_lt (Nat.lt_of_not_le fun hle => hdeep ⟨hne, hle⟩)

end

end RuleFlow.Logic
