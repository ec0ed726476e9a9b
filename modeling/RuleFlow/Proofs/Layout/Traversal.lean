import RuleFlow.Proofs.Layout.Queue
import RuleFlow.Proofs.Layout.Numbering

/-!
# The sweep over a compiled graph

In the graph of a tree without empty groups the layers follow from the links alone: a condition lies
on the layer after the length of its path, and all actions lie right below the lowest condition,
which is a leaf.

The order of the sweep is followed block by block.  A condition unlocks its children in order, and
the last leaf to be finished unlocks all actions at once.  Level by level the conditions are
therefore finished in document order (`filterMap_path?_order`), and the actions in theirs
(`filterMap_index?_order`).
-/

namespace RuleFlow

/-! ## Lists -/

/-- A list without repetitions whose parts are all empty or all the same is one such part. -/
theorem flatMap_eq_nil_or {α β : Type} {f : α → List β} {part : List β} {l : List α}
    (hf : ∀ x ∈ l, f x = [] ∨ f x = part) (hnodup : (l.flatMap f).Nodup) :
    l.flatMap f = [] ∨ l.flatMap f = part := by
  induction l with
  | nil => exact .inl rfl
  | cons x l ih =>
    rw [List.flatMap_cons] at hnodup ⊢
    have ih := ih (fun y hy => hf y (List.mem_cons_of_mem x hy)) (List.nodup_append.mp hnodup).2.1
    rcases hf x List.mem_cons_self with hx | hx
    · rwa [hx, List.nil_append]
    · rcases ih with ih | ih
      · rw [hx, ih, List.append_nil]
        exact .inr rfl
      · rw [hx, ih] at hnodup ⊢
        cases part with
        | nil => exact .inl rfl
        | cons b part =>
          exact absurd List.mem_cons_self
            (List.disjoint_of_nodup_append hnodup List.mem_cons_self)

/-! ## Layers of sites -/

namespace Site

/-- The layer of a site in the graph of a tree. -/
def layer (tree : Option Logic) : Site → Nat
  | .trigger => 0
  | .condition p => p.length + 1
  | .action _ => tree.elim 1 (·.depth + 1)

/-- The path of a condition. -/
def path? : Site → Option (List Nat)
  | .condition p => some p
  | _ => none

/-- The index of an action. -/
def index? : Site → Option Nat
  | .action i => some i
  | _ => none

theorem path?_eq_some {a : Site} {p : List Nat} : a.path? = some p ↔ a = .condition p := by
  cases a <;> simp [path?]

theorem index?_eq_some {a : Site} {i : Nat} : a.index? = some i ↔ a = .action i := by
  cases a <;> simp [index?]

theorem layer_eq_zero {tree : Option Logic} {a : Site} : a.layer tree = 0 ↔ a = .trigger := by
  cases a <;> cases tree <;> simp [layer]

end Site

namespace FlowGraph

variable {tree : Option Logic} {actionCount : Nat} {a b : Site}

@[simp] theorem layer_above (tree : Option Logic) (p : List Nat) :
    (above p).layer tree = p.length := by
  rw [above]
  split
  · next h => rw [h]; rfl
  · next h =>
    have := List.length_pos_iff.mpr h
    rw [Site.layer, List.length_dropLast]
    omega

/-- No condition lies as low as the actions. -/
theorem layer_condition_ne {p : List Nat} (hp : .condition p ∈ sites tree actionCount) (i : Nat) :
    (Site.condition p).layer tree ≠ (Site.action i).layer tree := by
  cases tree with
  | none => simp [sites] at hp
  | some t =>
    obtain ⟨s, hs⟩ := Option.isSome_iff_exists.mp (Logic.mem_paths.mp (condition_mem_sites.mp hp))
    have hle := Logic.length_add_depth_le hs
    have hpos := s.depth_pos
    simp only [Site.layer, Option.elim_some]
    omega

/-- Every link leads further down. -/
theorem layer_lt_of_mem_links (h : (a, b) ∈ links tree actionCount) :
    a.layer tree < b.layer tree := by
  cases tree with
  | none =>
    obtain ⟨i, -, h⟩ := mem_linksToActions.mp h
    cases h
    exact Nat.zero_lt_one
  | some t =>
    rcases mem_links_some.mp h with ⟨p, -, rfl, rfl⟩ | ⟨p, c, hp, i, -, rfl, rfl⟩
    · rw [layer_above]
      exact Nat.lt_succ_self _
    · have hle := Logic.length_add_depth_le hp
      rw [Logic.depth] at hle
      exact Nat.succ_lt_succ hle

/-- Below the trigger every site is linked from the layer right above it. -/
theorem exists_mem_links_layer (htree : ∀ t ∈ tree, t.NoEmptyGroup)
    (hb : b ∈ sites tree actionCount) (hne : b ≠ .trigger) :
    ∃ a, (a, b) ∈ links tree actionCount ∧ b.layer tree = a.layer tree + 1 := by
  cases tree with
  | none =>
    obtain ⟨i, hi, rfl⟩ : ∃ i < actionCount, Site.action i = b := by simpa [sites, hne] using hb
    exact ⟨.trigger, mem_linksToActions.mpr ⟨i, hi, rfl⟩, rfl⟩
  | some t =>
    cases b with
    | trigger => exact absurd rfl hne
    | condition p =>
      have hp : p ∈ t.paths := by simpa [sites] using hb
      exact ⟨above p, mem_links_some.mpr (.inl ⟨p, hp, rfl, rfl⟩), by rw [layer_above]; rfl⟩
    | action i =>
      have hi : i < actionCount := by simpa [sites] using hb
      obtain ⟨p, c, hp, hlen⟩ := Logic.exists_leaf_at_depth (htree t rfl)
      exact ⟨.condition p, mem_links_some.mpr (.inr ⟨p, c, hp, i, hi, rfl, rfl⟩),
        congrArg (· + 1) hlen.symm⟩

/-! ## The conditions and the actions among the sites -/

theorem filterMap_path?_sites (t : Logic) (actionCount : Nat) :
    (sites (some t) actionCount).filterMap Site.path? = t.paths := by
  have hconditions : (t.paths.map Site.condition).filterMap Site.path? = t.paths := by
    rw [List.filterMap_map]
    exact List.filterMap_some
  have hactions : ((List.range actionCount).map Site.action).filterMap Site.path? = [] := by
    rw [List.filterMap_map, List.filterMap_eq_nil_iff]
    exact fun _ _ => rfl
  rw [sites, List.filterMap_append, List.filterMap_cons_none rfl, Option.elim_some, hconditions,
    hactions, List.append_nil]

theorem filterMap_index?_sites (tree : Option Logic) (actionCount : Nat) :
    (sites tree actionCount).filterMap Site.index? = List.range actionCount := by
  have hconditions : (tree.elim [] fun t => t.paths.map Site.condition).filterMap Site.index? =
      [] := by
    cases tree with
    | none => rfl
    | some t =>
      rw [Option.elim_some, List.filterMap_map, List.filterMap_eq_nil_iff]
      exact fun _ _ => rfl
  rw [sites, List.filterMap_append, List.filterMap_cons_none rfl, hconditions, List.nil_append,
    List.filterMap_map]
  exact List.filterMap_some

/-! ## What is linked from a site -/

/-- The conditions linked from a site, in document order. -/
theorem filterMap_path?_links (t : Logic) (actionCount : Nat) (a : Site) :
    (links (some t) actionCount).filterMap (readFrom a Site.path?) =
      t.paths.filter (above · = a) := by
  have hposition (x : List Nat × Logic) :
      ((above x.1, Site.condition x.1) ::
        if x.2.isLeaf then linksToActions actionCount (.condition x.1) else []).filterMap
          (readFrom a Site.path?) =
        (Option.guard (above · = a) x.1).toList := by
    have hactions : (if x.2.isLeaf then linksToActions actionCount (.condition x.1) else
        []).filterMap (readFrom a Site.path?) = [] := by
      rw [List.filterMap_eq_nil_iff]
      intro l hl
      split at hl
      · obtain ⟨i, -, rfl⟩ := mem_linksToActions.mp hl
        simp [readFrom, Site.path?]
      · cases hl
    rw [List.filterMap_cons, hactions]
    by_cases ha : above x.1 = a <;> simp [readFrom, ha, Site.path?, Option.guard]
  rw [links_some, List.filterMap_flatMap, funext hposition, ← List.filterMap_eq_flatMap_toList,
    ← List.filterMap_eq_filter, Logic.paths, List.filterMap_map]
  rfl

theorem filterMap_index?_linksToActions (actionCount : Nat) (source a : Site) :
    (linksToActions actionCount source).filterMap (readFrom a Site.index?) =
      if source = a then List.range actionCount else [] := by
  rw [linksToActions, List.filterMap_map]
  by_cases ha : source = a
  · have hread : readFrom a Site.index? ∘ (fun i => (source, .action i)) = some := by
      funext i
      exact if_pos ha
    rw [hread, List.filterMap_some, if_pos ha]
  · have hread : readFrom a Site.index? ∘ (fun i => (source, .action i)) = fun _ => none := by
      funext i
      exact if_neg ha
    rw [hread, if_neg ha, List.filterMap_eq_nil_iff]
    exact fun _ _ => rfl

/-- Of the conditions linked from a site, those on a lower level are the children of a condition. -/
theorem filter_above_filter_length (t : Logic) (k : Nat) (a : Site) :
    (t.paths.filter (above · = a)).filter (·.length = k + 1) =
      (a.path?.filter (·.length = k)).toList.flatMap t.childPaths := by
  cases a with
  | trigger =>
    have hnil : (t.paths.filter (above · = .trigger)).filter (·.length = k + 1) = [] := by
      simp only [List.filter_eq_nil_iff, List.mem_filter, decide_eq_true_eq]
      rintro q ⟨-, hq⟩ hlen
      rw [← layer_above none, hq] at hlen
      cases hlen
    rw [hnil]
    rfl
  | action i =>
    have hnil : t.paths.filter (above · = .action i) = [] := by simp [above_ne_action]
    rw [hnil]
    rfl
  | condition p =>
    have hchildren : t.paths.filter (above · = .condition p) = t.childPaths p := by
      simp only [above_eq_condition, Logic.childPaths]
    rw [hchildren, Site.path?]
    by_cases hp : p.length = k
    · have hall : (t.childPaths p).filter (·.length = k + 1) = t.childPaths p := by
        simp only [List.filter_eq_self, decide_eq_true_eq]
        intro q hq
        rw [Logic.length_of_mem_childPaths hq, hp]
      simp [hall, hp, Option.filter]
    · have hnone : (t.childPaths p).filter (·.length = k + 1) = [] := by
        simp only [List.filter_eq_nil_iff, decide_eq_true_eq]
        intro q hq hk
        rw [Logic.length_of_mem_childPaths hq] at hk
        exact hp (Nat.succ.inj hk)
      simp [hnone, hp, Option.filter]

/-- The actions linked from a site: none or all. -/
theorem filterMap_index?_links (tree : Option Logic) (actionCount : Nat) (a : Site) :
    (links tree actionCount).filterMap (readFrom a Site.index?) = [] ∨
      (links tree actionCount).filterMap (readFrom a Site.index?) =
        List.range actionCount := by
  have hnodup : ((links tree actionCount).filterMap (readFrom a Site.index?)).Nodup := by
    refine (links_nodup tree actionCount).filterMap fun l l' i hl hl' => ?_
    simp only [readFrom, Option.mem_def, Option.ite_none_right_eq_some,
      Site.index?_eq_some] at hl hl'
    exact Prod.ext (hl.1.trans hl'.1.symm) (hl.2.trans hl'.2.symm)
  cases tree with
  | none =>
    rw [links, Option.elim_none, filterMap_index?_linksToActions]
    split
    · exact .inr rfl
    · exact .inl rfl
  | some t =>
    rw [links_some, List.filterMap_flatMap] at hnodup ⊢
    refine flatMap_eq_nil_or (fun x _ => ?_) hnodup
    have hcondition : readFrom a Site.index? (above x.1, .condition x.1) = none := by
      rw [readFrom]
      split <;> rfl
    rw [List.filterMap_cons_none hcondition]
    split
    · rw [filterMap_index?_linksToActions]
      split
      · exact .inr rfl
      · exact .inl rfl
    · exact .inl rfl

end FlowGraph

namespace Numbering

section Order

open FlowGraph (above readFrom filterMap_path?_links)
open Sweep (unlocked block mem_block unlockedBy)

variable {tree : Option Logic} {actionCount n : Nat} {links : Links n}
  (num : Numbering tree actionCount links)

include num

/-! ## Layers -/

theorem layer_lt {u v : Fin n} (h : links.Joins u v) :
    (num.site u).layer tree < (num.site v).layer tree :=
  FlowGraph.layer_lt_of_mem_links (num.mem_links.mp h)

theorem acyclic : Acyclic links.Joins := Sweep.acyclic_of_lt fun _ _ h => num.layer_lt h

theorem precedes {u v : Fin n} (h : (u, v) ∈ links) :
    Precedes (Sweep.run links n (.start links)).order u v :=
  Sweep.precedes_of_released_eq_nil (Sweep.released_run_start links num.acyclic) u v h

theorem exists_link_layer (htree : ∀ t ∈ tree, t.NoEmptyGroup) {v : Fin n}
    (hv : num.site v ≠ .trigger) :
    ∃ u, links.Joins u v ∧ (num.site v).layer tree = (num.site u).layer tree + 1 := by
  obtain ⟨a, ha, hlayer⟩ := FlowGraph.exists_mem_links_layer htree (num.site_mem v) hv
  obtain ⟨u, rfl, hlink⟩ := num.exists_link ha
  exact ⟨u, hlink, hlayer⟩

/-- The sweep finds the layers of the sites. -/
theorem layer_run_start (htree : ∀ t ∈ tree, t.NoEmptyGroup) (v : Fin n) :
    (Sweep.run links n (.start links)).layer.get v = (num.site v).layer tree :=
  Sweep.layer_eq_of_lt (fun _ _ h => num.layer_lt h)
    (fun _ hv => num.exists_link_layer htree (mt Site.layer_eq_zero.mpr hv)) v

/-! ## The order of the sweep -/

/-- The sites in the order in which the sweep finishes them. -/
def order : List Site :=
  (Sweep.run links n (.start links)).order.map num.site

theorem order_perm : num.order.Perm (FlowGraph.sites tree actionCount) := by
  rw [order, ← num.map_site]
  exact (Sweep.perm_order_run_start links).map _

/-- What enters the queue first is the trigger. -/
theorem site_of_mem_queue_start (htree : ∀ t ∈ tree, t.NoEmptyGroup) {v : Fin n}
    (hv : v ∈ (Sweep.start links).queue) : num.site v = .trigger := by
  by_contra hne
  obtain ⟨u, hlink, -⟩ := num.exists_link_layer htree hne
  have hmem := Links.mem_predecessors.mpr hlink
  rw [Sweep.mem_queue_start.mp hv] at hmem
  cases hmem

/-- Apart from the trigger the order consists of what its nodes unlock. -/
theorem filterMap_order {α : Type} (htree : ∀ t ∈ tree, t.NoEmptyGroup) (f : Site → Option α)
    (hf : f .trigger = none) :
    num.order.filterMap f = (Sweep.run links n (.start links)).order.flatMap fun u =>
      (unlockedBy links u).filterMap fun v => f (num.site v) := by
  have hqueue : (Sweep.start links).queue.filterMap (fun v => f (num.site v)) = [] := by
    rw [List.filterMap_eq_nil_iff]
    intro v hv
    rw [num.site_of_mem_queue_start htree hv, hf]
  have horder := congrArg (List.filterMap fun v => f (num.site v))
    (Sweep.order_eq_flatMap num.acyclic)
  rw [List.filterMap_append, hqueue, List.nil_append, List.filterMap_flatMap] at horder
  rw [order, List.filterMap_map]
  exact horder

/-- A node follows its predecessors in the order, so it is unlocked by the last of them. -/
theorem mem_unlockedBy {u v : Fin n} : v ∈ unlockedBy links u ↔ (u, v) ∈ links ∧
    ∀ w, (w, v) ∈ links → Precedes (Sweep.run links n (.start links)).order w u ∨ w = u := by
  rw [unlockedBy, mem_block, and_congr_right_iff, and_iff_right_iff_imp]
  rintro hlink - (hvu | rfl)
  · exact Precedes.irrefl u ((num.precedes hlink).trans hvu)
  · exact Precedes.irrefl v (num.precedes hlink)

/-- What a node unlocks, if that is all that can be read off its successors. -/
theorem filterMap_unlockedBy {α : Type} {f : Site → Option α} {u : Fin n}
    (hf : ∀ v x, (u, v) ∈ links → f (num.site v) = some x → v ∈ unlockedBy links u) :
    (unlockedBy links u).filterMap (fun v => f (num.site v)) =
      (FlowGraph.links tree actionCount).filterMap (readFrom (num.site u) f) := by
  rw [← num.filterMap_successors, unlockedBy, block, unlocked, (num.successors_nodup u).dedup,
    List.filterMap_filter]
  apply List.filterMap_congr
  intro v hv
  cases hx : f (num.site v) with
  | none => exact ite_self none
  | some x =>
    have hmem := hf v x (Links.mem_successors.mp hv) hx
    exact if_pos (List.mem_filter.mp hmem).2

/-! ## Actions -/

/-- The actions are unlocked all at once, or none of them. -/
theorem filterMap_index?_unlockedBy (u : Fin n) :
    (unlockedBy links u).filterMap (fun v => (num.site v).index?) = [] ∨
    (unlockedBy links u).filterMap (fun v => (num.site v).index?) = List.range actionCount := by
  by_cases hnone : ∀ v ∈ unlockedBy links u, (num.site v).index? = none
  · exact .inl (List.filterMap_eq_nil_iff.mpr hnone)
  · push Not at hnone
    obtain ⟨v, hv, hsome⟩ := hnone
    obtain ⟨i, hi⟩ := Option.ne_none_iff_exists'.mp hsome
    rw [num.filterMap_unlockedBy]
    · exact FlowGraph.filterMap_index?_links tree actionCount _
    · -- one unlocked action shows that all sources of actions are finished
      intro v' j hlink hj
      obtain ⟨hlink', hall⟩ := num.mem_unlockedBy.mp hv
      refine num.mem_unlockedBy.mpr ⟨hlink, fun w hw => hall w ?_⟩
      rw [num.mem_links, Site.index?_eq_some.mp hj] at hw
      rw [num.mem_links, Site.index?_eq_some.mp hi] at hlink' ⊢
      exact FlowGraph.action_mem_links (FlowGraph.lt_of_action_mem_links hlink') hw

/-- The actions are finished in their order. -/
theorem filterMap_index?_order (htree : ∀ t ∈ tree, t.NoEmptyGroup) :
    num.order.filterMap Site.index? = List.range actionCount := by
  have hperm : (num.order.filterMap Site.index?).Perm (List.range actionCount) := by
    rw [← FlowGraph.filterMap_index?_sites tree]
    exact num.order_perm.filterMap _
  -- two nodes that unlock all actions would list them twice
  have hnodup := hperm.nodup_iff.mpr List.nodup_range
  rw [num.filterMap_order htree _ rfl] at hperm hnodup ⊢
  rcases flatMap_eq_nil_or (fun u _ => num.filterMap_index?_unlockedBy u) hnodup with hnil | hall
  · rw [hnil] at hperm ⊢
    exact hperm.nil_eq
  · exact hall

end Order

/-! ## Conditions -/

section Conditions

open FlowGraph (above filterMap_path?_links filter_above_filter_length)
open Sweep (unlockedBy)

variable {t : Logic} {actionCount n : Nat} {links : Links n}
  (num : Numbering (some t) actionCount links)

include num

/-- A condition is unlocked by the site above it, as it waits for nothing else. -/
theorem filterMap_path?_unlockedBy (u : Fin n) :
    (unlockedBy links u).filterMap (fun v => (num.site v).path?) =
      t.paths.filter (above · = num.site u) := by
  rw [num.filterMap_unlockedBy, filterMap_path?_links]
  intro v p hlink hp
  refine num.mem_unlockedBy.mpr ⟨hlink, fun w hw => .inr (num.site_injective ?_)⟩
  rw [num.mem_links, Site.path?_eq_some.mp hp] at hlink hw
  rw [FlowGraph.eq_above_of_mem_links hlink, FlowGraph.eq_above_of_mem_links hw]

/-- The conditions are finished level by level, each level in document order. -/
theorem filterMap_path?_order (htree : t.NoEmptyGroup) (k : Nat) :
    (num.order.filterMap Site.path?).filter (·.length = k) = t.level k := by
  induction k with
  | zero =>
    have hperm := (num.order_perm.filterMap Site.path?).filter (·.length = 0)
    rw [FlowGraph.filterMap_path?_sites, ← Logic.level, Logic.level_zero] at hperm
    rw [List.perm_singleton.mp hperm, Logic.level_zero]
  | succ k ih =>
    have hblocks : num.order.filterMap Site.path? =
        num.order.flatMap fun a => t.paths.filter (above · = a) := by
      rw [num.filterMap_order (by simpa using htree) _ rfl, order, List.flatMap_map]
      exact List.flatMap_congr fun u _ => num.filterMap_path?_unlockedBy u
    calc (num.order.filterMap Site.path?).filter (·.length = k + 1)
        = num.order.flatMap fun a => (t.paths.filter (above · = a)).filter (·.length = k + 1) := by
          rw [hblocks, List.filter_flatMap]
      _ = num.order.flatMap fun a => (a.path?.filter (·.length = k)).toList.flatMap t.childPaths :=
          List.flatMap_congr fun a _ => filter_above_filter_length t k a
      _ = ((num.order.filterMap Site.path?).filter (·.length = k)).flatMap t.childPaths := by
          rw [List.filter_filterMap, List.filterMap_eq_flatMap_toList, List.flatMap_assoc]
      _ = t.level (k + 1) := by
          rw [ih, Logic.flatMap_childPaths_level]

end Conditions

end Numbering

end RuleFlow
