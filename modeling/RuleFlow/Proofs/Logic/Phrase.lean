import RuleFlow.Proofs.Logic.Position

/-!
# Canonical forms

What a tree says does not depend on groups of one child, nor on groups within groups of the same
kind.  A phrase is a tree over any atoms; `Phrase.join` puts phrases together so that neither of the
two arises.  The canonical form of a tree (`Logic.canonical?`) is the phrase that is left when the
empty groups have been removed.  Its groups have at least two parts, none of which is a group of the
same kind (`Phrase.Merged`), and it has the truth value of the tree under every assignment.
-/

namespace RuleFlow

/-- The truth value of a group. -/
def Combinator.combine : Combinator → List Bool → Bool
  | .and, bs => bs.all id
  | .or, bs => bs.any id

theorem Combinator.combine_singleton (kind : Combinator) (b : Bool) : kind.combine [b] = b := by
  cases kind <;> simp [combine]

/-- Some of the truth values can be combined first. -/
theorem Combinator.combine_append (kind : Combinator) (bs cs : List Bool) :
    kind.combine (bs ++ cs) = kind.combine [kind.combine bs, kind.combine cs] := by
  cases kind <;> simp [combine]

theorem Combinator.combine_cons (kind : Combinator) (b : Bool) (bs : List Bool) :
    kind.combine (b :: bs) = kind.combine [b, kind.combine bs] := by
  rw [← List.singleton_append, combine_append, combine_singleton]

/-- A condition over atoms. -/
inductive Phrase (α : Type) where
  | atom (a : α)
  | group (kind : Combinator) (parts : List (Phrase α))

namespace Phrase

variable {α β : Type} {kind : Combinator} {p : Phrase α} {ps : List (Phrase α)}

/-! ## Joining phrases -/

/-- The parts that a phrase adds to a group: a group of the same kind adds its own. -/
def partsIn (kind : Combinator) : Phrase α → List (Phrase α)
  | .atom a => [.atom a]
  | .group k parts => if k = kind then parts else [.group k parts]

/-- The phrase of some parts. One part is a phrase of its own. -/
def ofParts (kind : Combinator) : List (Phrase α) → Phrase α
  | [p] => p
  | parts => .group kind parts

/-- Joins phrases by a combinator. -/
def join (kind : Combinator) (ps : List (Phrase α)) : Phrase α :=
  ofParts kind (ps.flatMap (partsIn kind))

/-- Every group has at least two parts, none of which is a group of the same kind. -/
inductive Merged : Phrase α → Prop
  | atom (a : α) : Merged (.atom a)
  | group {kind : Combinator} {parts : List (Phrase α)} (htwo : 2 ≤ parts.length)
      (hparts : ∀ p ∈ parts, Merged p) (hkind : ∀ p ∈ parts, partsIn kind p = [p]) :
      Merged (.group kind parts)

/-- Two parts or more make a group. -/
theorem ofParts_of_two_le (h : 2 ≤ ps.length) : ofParts kind ps = .group kind ps := by
  match ps, h with
  | p :: q :: ps, _ => rfl

/-- Every merged phrase adds something to a group. -/
theorem Merged.partsIn_ne_nil (h : Merged p) (kind : Combinator) : partsIn kind p ≠ [] := by
  cases h with
  | atom a => simp [partsIn]
  | @group k parts htwo _ _ =>
    rw [partsIn]
    split
    · exact List.ne_nil_of_length_pos (by omega)
    · exact List.cons_ne_nil _ _

/-- The parts that a merged phrase adds to a group are merged and no groups of that kind. -/
theorem Merged.of_mem_partsIn (h : Merged p) {q : Phrase α} (hq : q ∈ partsIn kind p) :
    Merged q ∧ partsIn kind q = [q] := by
  cases h with
  | atom a =>
    rw [partsIn, List.mem_singleton] at hq
    subst hq
    exact ⟨.atom a, rfl⟩
  | @group k parts htwo hparts hkind =>
    rw [partsIn] at hq
    split at hq
    case _ hk =>
      subst hk
      exact ⟨hparts q hq, hkind q hq⟩
    case _ hk =>
      rw [List.mem_singleton] at hq
      subst hq
      exact ⟨.group htwo hparts hkind, by rw [partsIn, if_neg hk]⟩

/-- A merged phrase is put together again from its parts. -/
theorem Merged.ofParts_partsIn (h : Merged p) (kind : Combinator) :
    ofParts kind (partsIn kind p) = p := by
  cases h with
  | atom a => rfl
  | @group k parts htwo _ _ =>
    rw [partsIn]
    split
    case _ hk =>
      rw [ofParts_of_two_le htwo, hk]
    case _ => rfl

/-- Joining one phrase leaves it as it is. -/
theorem Merged.join_singleton (h : Merged p) (kind : Combinator) : join kind [p] = p := by
  rw [join, List.flatMap_singleton, h.ofParts_partsIn]

/-- No phrase gets lost when phrases are taken apart. -/
theorem length_le_length_flatMap_partsIn (h : ∀ p ∈ ps, Merged p) (kind : Combinator) :
    ps.length ≤ (ps.flatMap (partsIn kind)).length := by
  induction ps with
  | nil => exact Nat.le_refl _
  | cons p ps ih =>
    obtain ⟨hp, hps⟩ := List.forall_mem_cons.mp h
    have hpos := List.length_pos_iff.mpr (hp.partsIn_ne_nil kind)
    have := ih hps
    rw [List.flatMap_cons, List.length_append, List.length_cons]
    omega

theorem flatMap_partsIn_ne_nil (hne : ps ≠ []) (h : ∀ p ∈ ps, Merged p) :
    ps.flatMap (partsIn kind) ≠ [] := by
  rw [← List.length_pos_iff] at hne ⊢
  exact Nat.lt_of_lt_of_le hne (length_le_length_flatMap_partsIn h kind)

/-- All parts that merged phrases add to a group are merged and no groups of that kind. -/
theorem of_mem_flatMap_partsIn (h : ∀ p ∈ ps, Merged p) {q : Phrase α}
    (hq : q ∈ ps.flatMap (partsIn kind)) : Merged q ∧ partsIn kind q = [q] := by
  obtain ⟨p, hp, hq⟩ := List.mem_flatMap.mp hq
  exact (h p hp).of_mem_partsIn hq

/-- Joining keeps phrases merged. -/
theorem merged_join (hne : ps ≠ []) (h : ∀ p ∈ ps, Merged p) : Merged (join kind ps) := by
  have hall : ∀ q ∈ ps.flatMap (partsIn kind), Merged q ∧ partsIn kind q = [q] :=
    fun q hq => of_mem_flatMap_partsIn h hq
  rw [join]
  match hflat : ps.flatMap (partsIn kind) with
  | [] => exact absurd hflat (flatMap_partsIn_ne_nil hne h)
  | [q] => exact (hall q (by simp [hflat])).1
  | q :: r :: qs =>
    rw [hflat] at hall
    exact .group (by simp) (fun p hp => (hall p hp).1) fun p hp => (hall p hp).2

/-! ## Merging -/

mutual

/-- The phrase with groups of one part left out and groups of one kind merged. -/
def merge : Phrase α → Phrase α
  | .atom a => .atom a
  | .group kind parts => .join kind (mergeAll parts)

def mergeAll : List (Phrase α) → List (Phrase α)
  | [] => []
  | p :: ps => p.merge :: mergeAll ps

end

theorem mergeAll_eq_map (ps : List (Phrase α)) : mergeAll ps = ps.map merge := by
  induction ps with
  | nil => rfl
  | cons p ps ih => rw [mergeAll, ih, List.map_cons]

/-- Merging leaves merged phrases as they are. -/
theorem Merged.merge_eq (h : Merged p) : p.merge = p := by
  induction h with
  | atom a => rfl
  | @group kind parts htwo _ hkind ih =>
    have hparts : parts.map merge = parts := by
      rw [List.map_congr_left ih, List.map_id']
    have hown : parts.flatMap (partsIn kind) = parts := by
      rw [List.flatMap_congr hkind, List.flatMap_singleton']
    rw [merge, mergeAll_eq_map, hparts, join, hown, ofParts_of_two_le htwo]

/-- Merging what is made of parts is joining the merged parts, however many there are. -/
theorem merge_ofParts (kind : Combinator) :
    ∀ {ps : List (Phrase α)}, (∀ p ∈ ps, Merged p.merge) →
      (ofParts kind ps).merge = join kind (ps.map merge)
  | [], _ => rfl
  | [p], h => ((h p List.mem_cons_self).join_singleton kind).symm
  | p :: q :: ps, _ => by rw [ofParts_of_two_le (by simp), merge, mergeAll_eq_map]

/-! ## Other atoms -/

mutual

/-- The phrase with its atoms replaced. -/
def map (f : α → β) : Phrase α → Phrase β
  | .atom a => .atom (f a)
  | .group kind parts => .group kind (mapAll f parts)

def mapAll (f : α → β) : List (Phrase α) → List (Phrase β)
  | [] => []
  | p :: ps => p.map f :: mapAll f ps

end

theorem mapAll_eq_map (f : α → β) (ps : List (Phrase α)) : mapAll f ps = List.map (map f) ps := by
  induction ps with
  | nil => rfl
  | cons p ps ih => rw [mapAll, ih, List.map_cons]

/-- Replacing atoms does not change the kind of a group, so the parts remain the parts. -/
theorem partsIn_map (f : α → β) (kind : Combinator) (p : Phrase α) :
    partsIn kind (p.map f) = (partsIn kind p).map (map f) := by
  cases p with
  | atom a => simp [map, partsIn]
  | group k parts =>
    rw [map, partsIn, partsIn, mapAll_eq_map]
    split <;> simp [map, mapAll_eq_map]

theorem ofParts_map (f : α → β) (kind : Combinator) :
    ∀ ps : List (Phrase α), ofParts kind (ps.map (map f)) = (ofParts kind ps).map f
  | [] => rfl
  | [p] => rfl
  | p :: q :: ps => by simp [ofParts, map, mapAll_eq_map]

/-- Joining does not look at atoms. -/
theorem join_map (f : α → β) (kind : Combinator) (ps : List (Phrase α)) :
    join kind (ps.map (map f)) = (join kind ps).map f := by
  rw [join, join, ← ofParts_map, List.flatMap_map, List.map_flatMap]
  simp only [partsIn_map]

/-- Replacing atoms keeps phrases merged, even if different atoms become the same. -/
theorem Merged.map (h : Merged p) (f : α → β) : Merged (p.map f) := by
  induction h with
  | atom a => exact .atom (f a)
  | group htwo _ hkind ih =>
    rw [Phrase.map, mapAll_eq_map]
    refine .group (by rwa [List.length_map]) ?_ ?_
    · rw [List.forall_mem_map]
      exact ih
    · rw [List.forall_mem_map]
      exact fun p hp => by rw [partsIn_map, hkind p hp, List.map_singleton]

mutual

/-- The atoms of a phrase, from left to right. -/
def atoms : Phrase α → List α
  | .atom a => [a]
  | .group _ parts => atomsOfAll parts

def atomsOfAll : List (Phrase α) → List α
  | [] => []
  | p :: ps => p.atoms ++ atomsOfAll ps

end

theorem atomsOfAll_append (ps qs : List (Phrase α)) :
    atomsOfAll (ps ++ qs) = atomsOfAll ps ++ atomsOfAll qs := by
  induction ps with
  | nil => rfl
  | cons p ps ih => rw [List.cons_append, atomsOfAll, ih, atomsOfAll, List.append_assoc]

/-- An atom of some phrases is an atom of one of them. -/
theorem mem_atomsOfAll {ps : List (Phrase α)} {a : α} :
    a ∈ atomsOfAll ps ↔ ∃ p ∈ ps, a ∈ p.atoms := by
  induction ps with
  | nil => simp [atomsOfAll]
  | cons p ps ih => simp [atomsOfAll, ih]

/-- The parts that a phrase adds to a group have its atoms. -/
theorem atomsOfAll_partsIn (kind : Combinator) (p : Phrase α) :
    atomsOfAll (partsIn kind p) = p.atoms := by
  cases p with
  | atom a => simp [partsIn, atoms, atomsOfAll]
  | group k parts =>
    rw [partsIn]
    split <;> simp [atoms, atomsOfAll]

theorem atoms_ofParts (kind : Combinator) :
    ∀ ps : List (Phrase α), (ofParts kind ps).atoms = atomsOfAll ps
  | [] => rfl
  | [p] => by simp [ofParts, atomsOfAll]
  | p :: q :: ps => rfl

/-- Joining keeps the atoms in their order. -/
theorem atoms_join (kind : Combinator) (ps : List (Phrase α)) :
    (join kind ps).atoms = atomsOfAll ps := by
  rw [join, atoms_ofParts]
  induction ps with
  | nil => rfl
  | cons p ps ih => rw [List.flatMap_cons, atomsOfAll_append, atomsOfAll_partsIn, ih, atomsOfAll]

mutual

/-- The atoms of the mapped phrase are the mapped atoms, in their order. -/
theorem atoms_map (f : α → β) : ∀ p : Phrase α, (p.map f).atoms = p.atoms.map f
  | .atom a => rfl
  | .group kind parts => by rw [map, atoms, atoms, atomsOfAll_mapAll f parts]

theorem atomsOfAll_mapAll (f : α → β) :
    ∀ ps : List (Phrase α), atomsOfAll (mapAll f ps) = (atomsOfAll ps).map f
  | [] => rfl
  | p :: ps => by
    rw [mapAll, atomsOfAll, atomsOfAll, List.map_append, atoms_map f p, atomsOfAll_mapAll f ps]

end

mutual

/-- Phrases are told apart after a replacement that tells their atoms apart. -/
theorem eq_of_map_eq {f : α → β} : ∀ {p q : Phrase α},
    (∀ a ∈ p.atoms, ∀ b ∈ q.atoms, f a = f b → a = b) → p.map f = q.map f → p = q
  | .atom a, .atom b, hf, h => by
    rw [map, map, atom.injEq] at h
    rw [hf a (by simp [atoms]) b (by simp [atoms]) h]
  | .group k ps, .group l qs, hf, h => by
    rw [map, map, group.injEq] at h
    rw [h.1, eq_of_mapAll_eq hf h.2]
  | .atom a, .group l qs, _, h => by simp [map] at h
  | .group k ps, .atom b, _, h => by simp [map] at h

theorem eq_of_mapAll_eq {f : α → β} : ∀ {ps qs : List (Phrase α)},
    (∀ a ∈ atomsOfAll ps, ∀ b ∈ atomsOfAll qs, f a = f b → a = b) →
      mapAll f ps = mapAll f qs → ps = qs
  | [], [], _, _ => rfl
  | p :: ps, q :: qs, hf, h => by
    rw [mapAll, mapAll, List.cons.injEq] at h
    simp only [atomsOfAll, List.mem_append] at hf
    rw [eq_of_map_eq (fun a ha b hb => hf a (.inl ha) b (.inl hb)) h.1,
      eq_of_mapAll_eq (fun a ha b hb => hf a (.inr ha) b (.inr hb)) h.2]
  | [], q :: qs, _, h => by simp [mapAll] at h
  | p :: ps, [], _, h => by simp [mapAll] at h

end

/-! ## Truth -/

mutual

/-- The truth value of a phrase under an assignment to its atoms. -/
def eval (v : α → Bool) : Phrase α → Bool
  | .atom a => v a
  | .group kind parts => kind.combine (evalAll v parts)

def evalAll (v : α → Bool) : List (Phrase α) → List Bool
  | [] => []
  | p :: ps => p.eval v :: evalAll v ps

end

theorem evalAll_append (v : α → Bool) (ps qs : List (Phrase α)) :
    evalAll v (ps ++ qs) = evalAll v ps ++ evalAll v qs := by
  induction ps with
  | nil => rfl
  | cons p ps ih => rw [List.cons_append, evalAll, ih, evalAll, List.cons_append]

/-- Taken apart for a group of some kind, a phrase is combined to its truth value by that kind. -/
theorem combine_evalAll_partsIn (v : α → Bool) (kind : Combinator) (p : Phrase α) :
    kind.combine (evalAll v (partsIn kind p)) = p.eval v := by
  cases p with
  | atom a => simp [partsIn, evalAll, Combinator.combine_singleton]
  | group k parts =>
    rw [partsIn]
    split
    case _ hk => rw [eval, hk]
    case _ => rw [evalAll, evalAll, Combinator.combine_singleton]

/-- One part is a phrase of its own, with its own truth value. -/
theorem eval_ofParts (v : α → Bool) (kind : Combinator) :
    ∀ ps : List (Phrase α), (ofParts kind ps).eval v = kind.combine (evalAll v ps)
  | [] => rfl
  | [p] => by simp [ofParts, evalAll, Combinator.combine_singleton]
  | p :: q :: ps => rfl

/-- Joined phrases have the truth value of a group of them. -/
theorem eval_join (v : α → Bool) (kind : Combinator) (ps : List (Phrase α)) :
    (join kind ps).eval v = kind.combine (evalAll v ps) := by
  rw [join, eval_ofParts]
  induction ps with
  | nil => rfl
  | cons p ps ih =>
    rw [List.flatMap_cons, evalAll_append, Combinator.combine_append, combine_evalAll_partsIn, ih,
      evalAll, ← Combinator.combine_cons]

mutual

/-- Merging keeps the truth value. -/
theorem eval_merge (v : α → Bool) : ∀ p : Phrase α, p.merge.eval v = p.eval v
  | .atom a => rfl
  | .group kind parts => by rw [merge, eval_join, evalAll_mergeAll, eval]

theorem evalAll_mergeAll (v : α → Bool) :
    ∀ ps : List (Phrase α), evalAll v (mergeAll ps) = evalAll v ps
  | [] => rfl
  | p :: ps => by rw [mergeAll, evalAll, eval_merge v p, evalAll_mergeAll v ps, evalAll]

end

mutual

/-- Only the values of the atoms that occur matter. -/
theorem eval_map {f : α → β} {v : α → Bool} {w : β → Bool} : ∀ {p : Phrase α},
    (∀ a ∈ p.atoms, w (f a) = v a) → (p.map f).eval w = p.eval v
  | .atom a, h => h a (by simp [atoms])
  | .group kind parts, h => by rw [map, eval, eval, evalAll_mapAll h]

theorem evalAll_mapAll {f : α → β} {v : α → Bool} {w : β → Bool} : ∀ {ps : List (Phrase α)},
    (∀ a ∈ atomsOfAll ps, w (f a) = v a) → evalAll w (mapAll f ps) = evalAll v ps
  | [], _ => rfl
  | p :: ps, h => by
    rw [atomsOfAll, List.forall_mem_append] at h
    rw [mapAll, evalAll, evalAll, eval_map h.1, evalAll_mapAll h.2]

end

end Phrase

/-! ## Trees -/

namespace Logic

mutual

/-- A tree as a phrase, without groups of one child and with groups of one kind merged. -/
def phrase : Logic → Phrase Condition
  | .leaf c => .atom c
  | .group kind children => .join kind (phrases children)

def phrases : List Logic → List (Phrase Condition)
  | [] => []
  | t :: ts => t.phrase :: phrases ts

end

/-- The canonical form of a tree: that of the tree without its empty groups. -/
def canonical? (t : Logic) : Option (Phrase Condition) := t.normalize.map phrase

theorem phrases_eq_map (ts : List Logic) : phrases ts = ts.map phrase := by
  induction ts with
  | nil => rfl
  | cons t ts ih => rw [phrases, ih, List.map_cons]

mutual

theorem merged_phrase : ∀ {t : Logic}, t.NoEmptyGroup → t.phrase.Merged
  | .leaf c, _ => .atom c
  | .group kind children, h => by
    obtain ⟨hne, hall⟩ := noEmptyGroup_group.mp h
    refine Phrase.merged_join ?_ (merged_phrases hall)
    rwa [phrases_eq_map, ne_eq, List.map_eq_nil_iff]

theorem merged_phrases : ∀ {ts : List Logic}, (∀ t ∈ ts, t.NoEmptyGroup) →
    ∀ p ∈ phrases ts, p.Merged
  | [], _ => by simp [phrases]
  | t :: ts, h => by
    rw [List.forall_mem_cons] at h
    rw [phrases, List.forall_mem_cons]
    exact ⟨merged_phrase h.1, merged_phrases h.2⟩

end

mutual

theorem atoms_phrase : ∀ t : Logic, t.phrase.atoms = t.conditions
  | .leaf c => rfl
  | .group kind children => by rw [phrase, Phrase.atoms_join, atomsOfAll_phrases, conditions]

theorem atomsOfAll_phrases : ∀ ts : List Logic, Phrase.atomsOfAll (phrases ts) = conditionsOfAll ts
  | [] => rfl
  | t :: ts => by
    rw [phrases, Phrase.atomsOfAll, atoms_phrase t, atomsOfAll_phrases ts, conditionsOfAll]

end

mutual

/-- The truth value of a tree under an assignment to comparisons. -/
def eval (v : Condition → Bool) : Logic → Bool
  | .leaf c => v c
  | .group kind children => kind.combine (evalAll v children)

def evalAll (v : Condition → Bool) : List Logic → List Bool
  | [] => []
  | t :: ts => t.eval v :: evalAll v ts

end

mutual

/-- A tree and its phrase have the same truth value. -/
theorem eval_phrase (v : Condition → Bool) : ∀ t : Logic, t.phrase.eval v = t.eval v
  | .leaf c => rfl
  | .group kind children => by rw [phrase, Phrase.eval_join, evalAll_phrases, eval]

theorem evalAll_phrases (v : Condition → Bool) :
    ∀ ts : List Logic, Phrase.evalAll v (phrases ts) = evalAll v ts
  | [] => rfl
  | t :: ts => by rw [phrases, Phrase.evalAll, eval_phrase v t, evalAll_phrases v ts, evalAll]

end

mutual

/-- A tree without empty groups has a comparison. -/
theorem conditions_ne_nil : ∀ {t : Logic}, t.NoEmptyGroup → t.conditions ≠ []
  | .leaf c, _ => List.cons_ne_nil c []
  | .group kind children, h => by
    obtain ⟨hne, hall⟩ := noEmptyGroup_group.mp h
    exact conditionsOfAll_ne_nil hne hall

theorem conditionsOfAll_ne_nil : ∀ {ts : List Logic}, ts ≠ [] → (∀ t ∈ ts, t.NoEmptyGroup) →
    conditionsOfAll ts ≠ []
  | t :: ts, _, h => by
    rw [conditionsOfAll]
    exact List.append_ne_nil_of_left_ne_nil (conditions_ne_nil (h t List.mem_cons_self)) _

end

/-- A tree vanishes with its empty groups exactly if it has no comparison. -/
theorem normalize_eq_none_iff {t : Logic} : t.normalize = none ↔ t.conditions = [] := by
  have hconditions := conditions_normalize t
  cases ht : t.normalize with
  | none =>
    rw [ht] at hconditions
    exact iff_of_true rfl hconditions.symm
  | some s =>
    rw [ht] at hconditions
    refine iff_of_false (Option.some_ne_none s) ?_
    rw [← hconditions]
    exact conditions_ne_nil (noEmptyGroup_normalize ht)

end Logic

end RuleFlow
