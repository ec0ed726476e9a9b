import RuleFlow.Proofs.Graph.Site
import Mathlib.Data.Set.Card

/-!
# Routes through a compiled graph

A route follows edges from node to node (`FlowGraph.Route`).  In a compiled graph every condition is
entered by one edge, so one route leads to it from the trigger, through the conditions above it, and
an action is entered once from every leaf.  The routes to an action are therefore counted by the
leaves, and a route that cannot go on has passed one leaf on its way to an action, because no group
of the tree is empty.

What this rests on is that the edges of the graph are the links of the tree, each of them once
(`FlowGraph.Draws`).  `Draws.last_link` then says how a route from the trigger can end.
-/

namespace RuleFlow

namespace FlowGraph

/-- Edges of a graph that lead on from one node to another. -/
inductive Route (g : FlowGraph) : String → List Edge → String → Prop
  | nil (a : String) : Route g a [] a
  | cons {a b : String} {e : Edge} {es : List Edge} (he : e ∈ g.edges) (hsource : e.source = a)
      (hes : Route g e.target es b) : Route g a (e :: es) b

/-- Tells whether an id is that of a comparison. -/
def isComparison (g : FlowGraph) (id : String) : Bool :=
  g.nodes.any fun n => n.id == id &&
    match n.data with
    | .condition _ (.predicate _) => true
    | _ => false

/-- How many comparisons a route from a node passes, the node itself included. -/
def comparisonsOn (g : FlowGraph) (a : String) (es : List Edge) : Nat :=
  (a :: es.map Edge.target).countP g.isComparison

/-- Where the last edge of a route starts. -/
def lastSource (es : List Edge) : Option String := es.getLast?.map Edge.source

@[simp]
theorem lastSource_concat (es : List Edge) (e : Edge) :
    lastSource (es ++ [e]) = some e.source := by
  simp [lastSource]

namespace Route

variable {g : FlowGraph} {a b c : String} {e : Edge} {es fs : List Edge}

theorem append (h : g.Route a es b) (h' : g.Route b fs c) : g.Route a (es ++ fs) c := by
  induction h with
  | nil a => exact h'
  | cons he hsource _ ih => exact .cons he hsource (ih h')

theorem of_append (h : g.Route a (es ++ fs) c) : ∃ b, g.Route a es b ∧ g.Route b fs c := by
  induction es generalizing a with
  | nil => exact ⟨a, .nil a, h⟩
  | cons e es ih =>
    cases h with
    | cons he hsource hes =>
      obtain ⟨b, hb, hfs⟩ := ih hes
      exact ⟨b, .cons he hsource hb, hfs⟩

/-- A route goes nowhere, or an edge leads to its end. -/
theorem eq_nil_or_concat (h : g.Route a es b) :
    es = [] ∧ a = b ∨ ∃ es' e, es = es' ++ [e] ∧ g.Route a es' e.source ∧ e ∈ g.edges ∧
      e.target = b := by
  rcases List.eq_nil_or_concat es with rfl | ⟨es', e, rfl⟩
  · cases h
    exact .inl ⟨rfl, rfl⟩
  · rw [List.concat_eq_append] at h
    obtain ⟨c, hc, hlast⟩ := h.of_append
    cases hlast with
    | cons he hsource hnil =>
      cases hnil
      exact .inr ⟨es', e, List.concat_eq_append, hsource ▸ hc, he, rfl⟩

/-- Where no edge leaves, a route goes nowhere. -/
theorem eq_of_outgoing_eq_nil (h : g.Route a es b) (ha : g.outgoing a = []) : a = b := by
  cases h with
  | nil => rfl
  | cons he hsource _ =>
    rw [outgoing, List.filter_eq_nil_iff] at ha
    exact absurd (beq_iff_eq.mpr hsource) (ha _ he)

end Route

theorem comparisonsOn_concat (g : FlowGraph) (a : String) (es : List Edge) (e : Edge) :
    g.comparisonsOn a (es ++ [e]) =
      g.comparisonsOn a es + if g.isComparison e.target then 1 else 0 := by
  rw [comparisonsOn, comparisonsOn, List.map_append, ← List.cons_append, List.countP_append,
    List.map_singleton, List.countP_singleton]

end FlowGraph

/-! ## Leaves -/

namespace Logic

mutual

theorem countP_isLeaf_positions : ∀ t : Logic,
    (t.positions.countP fun x => x.2.isLeaf) = t.leafCount
  | .leaf c => rfl
  | .group kind children => by
    rw [positions, List.countP_cons, countP_isLeaf_positionsFrom, leafCount]
    rfl

theorem countP_isLeaf_positionsFrom : ∀ (index : Nat) (ts : List Logic),
    ((positionsFrom index ts).countP fun x => x.2.isLeaf) = leafCountOfAll ts
  | _, [] => rfl
  | index, t :: ts => by
    rw [positionsFrom, List.countP_append, List.countP_map, countP_isLeaf_positionsFrom,
      leafCountOfAll, ← countP_isLeaf_positions t]
    rfl

end

/-- The leaves are as many as the leaf count says. -/
theorem encard_leaves (t : Logic) :
    {p | ∃ c, t.subtree? p = some (.leaf c)}.encard = t.leafCount := by
  have hleaves : {p | ∃ c, t.subtree? p = some (.leaf c)} =
      (((t.positions.filter fun x => x.2.isLeaf).map Prod.fst).toFinset : Set (List Nat)) := by
    ext p
    simp only [Set.mem_ofPred_eq, List.coe_toFinset, List.mem_map, List.mem_filter]
    constructor
    · rintro ⟨c, hc⟩
      exact ⟨(p, .leaf c), ⟨mem_positions.mpr hc, rfl⟩, rfl⟩
    · rintro ⟨⟨q, s⟩, ⟨hq, hs⟩, rfl⟩
      cases s with
      | leaf c => exact ⟨c, mem_positions.mp hq⟩
      | group kind children => cases hs
  have hnodup : ((t.positions.filter fun x => x.2.isLeaf).map Prod.fst).Nodup :=
    (paths_nodup t).sublist (List.filter_sublist.map _)
  rw [hleaves, Set.encard_coe_eq_coe_finsetCard, List.toFinset_card_of_nodup hnodup,
    List.length_map, ← List.countP_eq_length_filter, countP_isLeaf_positions]

end Logic

namespace FlowGraph

/-! ## Graphs of a tree -/

/-- The edges of a graph are the links of a tree with so many actions, and its comparisons are the
leaves. -/
structure Draws (g : FlowGraph) (tree : Option Logic) (actionCount : Nat) : Prop where
  ends : g.edges.map Edge.ends = (links tree actionCount).map idPair
  isComparison : ∀ a : Site, g.isComparison a.id = true ↔
    ∃ t ∈ tree, ∃ p c, t.subtree? p = some (.leaf c) ∧ a = .condition p

namespace Draws

variable {g : FlowGraph} {tree : Option Logic} {actionCount : Nat} (h : g.Draws tree actionCount)

include h

theorem exists_edge {l : Site × Site} (hl : l ∈ links tree actionCount) :
    ∃ e ∈ g.edges, e.source = l.1.id ∧ e.target = l.2.id := by
  have hmem := List.mem_map_of_mem (f := idPair) hl
  rw [← h.ends, List.mem_map] at hmem
  obtain ⟨e, he, heq⟩ := hmem
  exact ⟨e, he, Prod.ext_iff.mp heq⟩

theorem exists_link {e : Edge} (he : e ∈ g.edges) :
    ∃ l ∈ links tree actionCount, e.source = l.1.id ∧ e.target = l.2.id := by
  have hmem := List.mem_map_of_mem (f := Edge.ends) he
  rw [h.ends, List.mem_map] at hmem
  obtain ⟨l, hl, heq⟩ := hmem
  exact ⟨l, hl, Prod.ext_iff.mp heq.symm⟩

/-- No two edges join the same nodes. -/
theorem edge_eq {e e' : Edge} (he : e ∈ g.edges) (he' : e' ∈ g.edges)
    (hsource : e.source = e'.source) (htarget : e.target = e'.target) : e = e' := by
  have hpair : Function.Injective idPair := Site.id_injective.prodMap Site.id_injective
  have hnodup : (g.edges.map Edge.ends).Nodup :=
    h.ends ▸ (links_nodup tree actionCount).map hpair
  exact List.inj_on_of_nodup_map hnodup he he' (Prod.ext hsource htarget)

/-- A route goes on over a link. -/
theorem exists_route_concat {a b : Site} {start : String} {es : List Edge}
    (hes : g.Route start es a.id) (hl : (a, b) ∈ links tree actionCount) :
    ∃ e, g.Route start (es ++ [e]) b.id := by
  obtain ⟨e, he, hsource, htarget⟩ := h.exists_edge hl
  exact ⟨e, hes.append (.cons he hsource (htarget ▸ .nil _))⟩

/-- A route from the trigger goes nowhere or ends with a link. -/
theorem last_link {b : Site} {es : List Edge} (hes : g.Route triggerId es b.id) :
    es = [] ∧ b = .trigger ∨ ∃ es' e a, es = es' ++ [e] ∧ (a, b) ∈ links tree actionCount ∧
      g.Route triggerId es' a.id ∧ e ∈ g.edges ∧ e.source = a.id ∧ e.target = b.id := by
  rcases hes.eq_nil_or_concat with ⟨rfl, hb⟩ | ⟨es', e, rfl, hes', he, hb⟩
  · exact .inl ⟨rfl, (Site.id_injective (show Site.trigger.id = b.id from hb)).symm⟩
  · obtain ⟨⟨a, b'⟩, hl, hsource, htarget⟩ := h.exists_link he
    cases Site.id_injective (hb.symm.trans htarget)
    exact .inr ⟨es', e, a, rfl, hl, hsource ▸ hes', he, hsource, hb⟩

/-- Every route from the trigger ends at a site. -/
theorem exists_site_of_route {b : String} {es : List Edge} (hes : g.Route triggerId es b) :
    ∃ a ∈ sites tree actionCount, a.id = b := by
  rcases hes.eq_nil_or_concat with ⟨rfl, rfl⟩ | ⟨es', e, rfl, -, he, rfl⟩
  · exact ⟨.trigger, List.mem_cons_self, rfl⟩
  · obtain ⟨l, hl, -, htarget⟩ := h.exists_link he
    exact ⟨l.2, (mem_sites_of_mem_links hl).2, htarget.symm⟩

theorem eq_nil_of_route_trigger {es : List Edge} (hes : g.Route triggerId es triggerId) :
    es = [] := by
  rcases h.last_link (b := .trigger) hes with ⟨rfl, -⟩ | ⟨_, _, a, -, hl, -⟩
  · rfl
  · exact absurd hl trigger_notMem_links

/-- The routes to an action are counted by the sites that are linked to it, where one route leads to
each of them. -/
theorem encard_routes_action {i : Nat}
    (hunique : ∀ a, (a, .action i) ∈ links tree actionCount → ∃! es, g.Route triggerId es a.id) :
    {es | g.Route triggerId es (actionId i)}.encard =
      {a | (a, .action i) ∈ links tree actionCount}.encard := by
  -- a route is told by where its last edge starts
  have hinj : Set.InjOn lastSource {es | g.Route triggerId es (actionId i)} := by
    intro es hes es' hes' heq
    rcases h.last_link (b := .action i) hes with ⟨-, hb⟩ | ⟨fs, e, a, rfl, hl, hfs, he, hs, ht⟩
    · cases hb
    rcases h.last_link (b := .action i) hes' with
      ⟨-, hb⟩ | ⟨fs', e', a', rfl, -, hfs', he', hs', ht'⟩
    · cases hb
    have hsource : e.source = e'.source := by simpa using heq
    cases Site.id_injective (hs.symm.trans (hsource.trans hs'))
    rw [(hunique a hl).unique hfs hfs', h.edge_eq he he' hsource (ht.trans ht'.symm)]
  have himage : lastSource '' {es | g.Route triggerId es (actionId i)} =
      (fun a : Site => some a.id) '' {a | (a, .action i) ∈ links tree actionCount} := by
    ext source
    constructor
    · rintro ⟨es, hes, rfl⟩
      rcases h.last_link (b := .action i) hes with ⟨-, hb⟩ | ⟨fs, e, a, rfl, hl, -, -, hs, -⟩
      · cases hb
      · exact ⟨a, hl, by simp [hs]⟩
    · rintro ⟨a, hl, rfl⟩
      obtain ⟨es, hes, -⟩ := hunique a hl
      obtain ⟨e, he, hs, ht⟩ := h.exists_edge hl
      exact ⟨es ++ [e], hes.append (.cons he hs (ht ▸ .nil _)), by simp [hs]⟩
  have hsome : Function.Injective fun a : Site => some a.id :=
    (Option.some_injective _).comp Site.id_injective
  rw [← hinj.encard_image, himage, hsome.injOn.encard_image]

/-- To a site that is linked from one other only, one route leads if one leads to that other. -/
theorem existsUnique_route_concat {a b : Site} {es : List Edge} (hb : b ≠ .trigger)
    (hl : (a, b) ∈ links tree actionCount)
    (honly : ∀ a', (a', b) ∈ links tree actionCount → a' = a) (hes : g.Route triggerId es a.id)
    (hunique : ∀ es', g.Route triggerId es' a.id → es' = es) :
    ∃ e, e.target = b.id ∧ g.Route triggerId (es ++ [e]) b.id ∧
      ∀ es', g.Route triggerId es' b.id → es' = es ++ [e] := by
  obtain ⟨e, he, hs, ht⟩ := h.exists_edge hl
  refine ⟨e, ht, hes.append (.cons he hs (ht ▸ .nil _)), fun es' hes' => ?_⟩
  rcases h.last_link hes' with ⟨-, hb'⟩ | ⟨fs, e', a', rfl, hl', hfs, he', hs', ht'⟩
  · exact absurd hb' hb
  · cases honly a' hl'
    rw [hunique fs hfs, h.edge_eq he' he (hs'.trans hs.symm) (ht'.trans ht.symm)]

end Draws

section Conditions

variable {g : FlowGraph} {t : Logic} {actionCount : Nat} (h : g.Draws (some t) actionCount)

include h

namespace Draws

theorem isComparison_condition {p : List Nat} {s : Logic} (hp : t.subtree? p = some s) :
    g.isComparison (Site.condition p).id = s.isLeaf := by
  rw [Bool.eq_iff_iff, h.isComparison]
  constructor
  · rintro ⟨t', ⟨⟩, p', c, hp', ⟨⟩⟩
    rw [hp] at hp'
    cases hp'
    rfl
  · intro hs
    cases s with
    | leaf c => exact ⟨t, rfl, p, c, hp, rfl⟩
    | group kind children => cases hs

theorem comparisonsOn_trigger_nil : g.comparisonsOn triggerId [] = 0 := by
  have htrigger : g.isComparison triggerId = false := by
    rw [← Bool.not_eq_true, show triggerId = Site.trigger.id from rfl, h.isComparison]
    rintro ⟨t', -, p, c, -, ⟨⟩⟩
  simp [comparisonsOn, htrigger]

/-- One route leads from the trigger to a condition.  It passes the conditions above, which are
groups. -/
theorem route_condition {p : List Nat} {s : Logic} (hp : t.subtree? p = some s) :
    ∃ es, g.Route triggerId es (Site.condition p).id ∧
      (∀ es', g.Route triggerId es' (Site.condition p).id → es' = es) ∧
      es.length = p.length + 1 ∧ g.comparisonsOn triggerId es = if s.isLeaf then 1 else 0 := by
  -- the induction goes down the path, so the last step is taken off first
  induction p using List.reverseRecOn generalizing s with
  | nil =>
    have hl : (.trigger, .condition []) ∈ links (some t) actionCount :=
      mem_links_some.mpr (.inl ⟨[], Logic.mem_paths.mpr (by simp), rfl, rfl⟩)
    obtain ⟨e, ht, hroute, hunique⟩ := h.existsUnique_route_concat Site.noConfusion hl
      (fun a ha => eq_above_of_mem_links ha) (.nil triggerId) fun _ => h.eq_nil_of_route_trigger
    refine ⟨[] ++ [e], hroute, hunique, rfl, ?_⟩
    rw [comparisonsOn_concat, h.comparisonsOn_trigger_nil, ht, h.isComparison_condition hp,
      Nat.zero_add]
  | append_singleton p i ih =>
    obtain ⟨kind, children, hgroup, -⟩ := Logic.subtree?_concat.mp hp
    obtain ⟨es, hes, hes', hlen, hcount⟩ := ih hgroup
    have habove : above (p ++ [i]) = .condition p := above_eq_condition.mpr (by simp)
    have hl : (.condition p, .condition (p ++ [i])) ∈ links (some t) actionCount :=
      mem_links_some.mpr (.inl ⟨p ++ [i], Logic.mem_paths.mpr (by simp [hp]), habove.symm, rfl⟩)
    obtain ⟨e, ht, hroute, hunique⟩ := h.existsUnique_route_concat Site.noConfusion hl
      (fun a ha => (eq_above_of_mem_links ha).trans habove) hes hes'
    refine ⟨es ++ [e], hroute, hunique, by simp [hlen], ?_⟩
    rw [comparisonsOn_concat, hcount, ht, h.isComparison_condition hp]
    exact Nat.zero_add _

/-- A route goes down the tree from a condition. -/
theorem exists_route_down {p q : List Nat} (hq : (t.subtree? (p ++ q)).isSome) :
    ∃ es, g.Route (Site.condition p).id es (Site.condition (p ++ q)).id := by
  induction q using List.reverseRecOn with
  | nil => exact ⟨[], by rw [List.append_nil]; exact .nil _⟩
  | append_singleton q i ih =>
    rw [← List.append_assoc] at hq ⊢
    obtain ⟨s, hs⟩ := Option.isSome_iff_exists.mp hq
    obtain ⟨kind, children, hgroup, -⟩ := Logic.subtree?_concat.mp hs
    obtain ⟨es, hes⟩ := ih (by rw [hgroup]; rfl)
    have habove : above (p ++ q ++ [i]) = .condition (p ++ q) := above_eq_condition.mpr (by simp)
    obtain ⟨e, he⟩ := h.exists_route_concat hes (mem_links_some.mpr (.inl
      ⟨p ++ q ++ [i], Logic.mem_paths.mpr hq, habove.symm, rfl⟩))
    exact ⟨es ++ [e], he⟩

end Draws

end Conditions

/-! ## Routes to the actions -/

/-- An action is linked from some site. -/
theorem exists_action_mem_links {tree : Option Logic} (htree : ∀ t ∈ tree, t.NoEmptyGroup)
    {actionCount i : Nat} (hi : i < actionCount) :
    ∃ a, (a, .action i) ∈ links tree actionCount := by
  cases tree with
  | none => exact ⟨.trigger, mem_linksToActions.mpr ⟨i, hi, rfl⟩⟩
  | some t =>
    obtain ⟨p, c, hp, -⟩ := Logic.exists_leaf_at_depth (htree t rfl)
    exact ⟨.condition p, mem_links_some.mpr (.inr ⟨p, c, hp, i, hi, rfl, rfl⟩)⟩

namespace Draws

variable {g : FlowGraph} {tree : Option Logic} {actionCount : Nat} (h : g.Draws tree actionCount)

include h

/-- One route leads from the trigger to a site that is linked to the actions.  It passes one
comparison, which is its end, if there is a tree. -/
theorem route_source {a : Site} {i : Nat} (hl : (a, .action i) ∈ links tree actionCount) :
    ∃ es, g.Route triggerId es a.id ∧ (∀ es', g.Route triggerId es' a.id → es' = es) ∧
      es.length + 1 ≤ tree.elim 1 (·.depth + 1) ∧
      g.comparisonsOn triggerId es = if tree.isSome then 1 else 0 := by
  cases tree with
  | none =>
    obtain ⟨j, -, hj⟩ := mem_linksToActions.mp hl
    cases hj
    have htrigger : g.isComparison triggerId = false := by
      rw [← Bool.not_eq_true, show triggerId = Site.trigger.id from rfl, h.isComparison]
      rintro ⟨t, ⟨⟩, -⟩
    exact ⟨[], .nil _, fun _ => h.eq_nil_of_route_trigger, Nat.le_refl 1,
      by simp [comparisonsOn, htrigger]⟩
  | some t =>
    rcases mem_links_some.mp hl with ⟨p, -, -, hp⟩ | ⟨p, c, hp, -, -, rfl, -⟩
    · cases hp
    · obtain ⟨es, hes, hunique, hlen, hcount⟩ := h.route_condition hp
      refine ⟨es, hes, hunique, ?_, hcount⟩
      have hle := Logic.length_add_depth_le hp
      rw [Logic.depth] at hle
      rw [hlen, Option.elim_some]
      omega

/-- The routes to an action are counted by the leaves. -/
theorem encard_routes {i : Nat} (hi : i < actionCount) :
    {es | g.Route triggerId es (actionId i)}.encard = tree.elim 1 Logic.leafCount := by
  rw [h.encard_routes_action fun a ha => by
    obtain ⟨es, hes, hunique, -⟩ := h.route_source ha
    exact ⟨es, hes, hunique⟩]
  cases tree with
  | none =>
    have hsources : {a | (a, Site.action i) ∈ links none actionCount} = {.trigger} := by
      ext a
      simp [links, hi]
    rw [hsources, Set.encard_singleton]
    rfl
  | some t =>
    have hsources : {a | (a, Site.action i) ∈ links (some t) actionCount} =
        Site.condition '' {p | ∃ c, t.subtree? p = some (.leaf c)} := by
      ext a
      simp [mem_links_some, hi, eq_comm]
    rw [hsources, Function.Injective.encard_image (fun p q hpq => Site.condition.inj hpq),
      Logic.encard_leaves]
    rfl

/-- A route to an action comes from a site that is linked to it, and passes what leads there. -/
theorem route_action {i : Nat} {es : List Edge} (hes : g.Route triggerId es (actionId i)) :
    es.length ≤ tree.elim 1 (·.depth + 1) ∧
      g.comparisonsOn triggerId es = if tree.isSome then 1 else 0 := by
  rcases h.last_link (b := .action i) hes with ⟨-, hb⟩ | ⟨fs, e, a, rfl, hl, hfs, -, -, ht⟩
  · cases hb
  · obtain ⟨es', -, hunique, hlen, hcount⟩ := h.route_source hl
    have haction : g.isComparison e.target = false := by
      rw [ht, ← Bool.not_eq_true, h.isComparison]
      rintro ⟨t, -, p, c, -, ⟨⟩⟩
    rw [hunique fs hfs, comparisonsOn_concat, haction, List.length_append, List.length_singleton]
    exact ⟨hlen, hcount⟩

/-- No route from the trigger goes further than to an action. -/
theorem length_route_le {b : String} {es : List Edge} (hes : g.Route triggerId es b) :
    es.length ≤ tree.elim 1 (·.depth + 1) := by
  obtain ⟨a, ha, rfl⟩ := h.exists_site_of_route hes
  cases a with
  | trigger =>
    rw [h.eq_nil_of_route_trigger hes]
    exact Nat.zero_le _
  | condition p =>
    cases tree with
    | none => simp [sites] at ha
    | some t =>
      obtain ⟨s, hs⟩ := Option.isSome_iff_exists.mp (Logic.mem_paths.mp (condition_mem_sites.mp ha))
      obtain ⟨es', -, hunique, hlen, -⟩ := h.route_condition hs
      have hle := Logic.length_add_depth_le hs
      rw [hunique es hes, hlen, Option.elim_some]
      omega
  | action i => exact (h.route_action hes).1

/-! ## No dead ends -/

/-- A route leads from the trigger to every site. -/
theorem exists_route_to (htree : ∀ t ∈ tree, t.NoEmptyGroup) {a : Site}
    (ha : a ∈ sites tree actionCount) : ∃ es, g.Route triggerId es a.id := by
  cases a with
  | trigger => exact ⟨[], .nil _⟩
  | condition p =>
    cases tree with
    | none => simp [sites] at ha
    | some t =>
      obtain ⟨s, hs⟩ := Option.isSome_iff_exists.mp (Logic.mem_paths.mp (condition_mem_sites.mp ha))
      obtain ⟨es, hes, -⟩ := h.route_condition hs
      exact ⟨es, hes⟩
  | action i =>
    obtain ⟨a, hl⟩ := exists_action_mem_links htree (action_mem_sites.mp ha)
    obtain ⟨es, hes, -⟩ := h.route_source hl
    obtain ⟨e, he⟩ := h.exists_route_concat hes hl
    exact ⟨es ++ [e], he⟩

/-- A route leads from every site to an action, if there are any: below every condition is a
leaf. -/
theorem exists_route_from (htree : ∀ t ∈ tree, t.NoEmptyGroup) (hcount : 0 < actionCount) {a : Site}
    (ha : a ∈ sites tree actionCount) :
    ∃ i < actionCount, ∃ es, g.Route a.id es (actionId i) := by
  have hcondition {t : Logic} (ht : t ∈ tree) {p : List Nat} (hp : p ∈ t.paths) :
      ∃ i < actionCount, ∃ es, g.Route (Site.condition p).id es (actionId i) := by
    cases ht
    obtain ⟨s, hs⟩ := Option.isSome_iff_exists.mp (Logic.mem_paths.mp hp)
    have hgroups := Logic.noEmptyGroup_subtree? (htree t rfl) hs
    obtain ⟨q, c, hq, -⟩ := Logic.exists_leaf_at_depth hgroups
    have hleaf : t.subtree? (p ++ q) = some (.leaf c) := by
      rw [Logic.subtree?_append, hs, Option.bind_some, hq]
    obtain ⟨es, hes⟩ := h.exists_route_down (by rw [hleaf]; rfl)
    obtain ⟨e, he⟩ := h.exists_route_concat hes
      (mem_links_some.mpr (.inr ⟨p ++ q, c, hleaf, 0, hcount, rfl, rfl⟩))
    exact ⟨0, hcount, es ++ [e], he⟩
  cases a with
  | trigger =>
    cases tree with
    | none =>
      obtain ⟨e, he⟩ := h.exists_route_concat (.nil triggerId)
        (mem_linksToActions.mpr ⟨0, hcount, rfl⟩)
      exact ⟨0, hcount, [e], he⟩
    | some t =>
      have hroot : [] ∈ t.paths := Logic.mem_paths.mpr (by simp)
      obtain ⟨e, he⟩ := h.exists_route_concat (.nil triggerId)
        (mem_links_some.mpr (.inl ⟨[], hroot, rfl, rfl⟩))
      obtain ⟨i, hi, es, hes⟩ := hcondition rfl hroot
      exact ⟨i, hi, [e] ++ es, he.append hes⟩
  | condition p =>
    cases tree with
    | none => simp [sites] at ha
    | some t => exact hcondition rfl (condition_mem_sites.mp ha)
  | action i => exact ⟨i, action_mem_sites.mp ha, [], .nil _⟩

end Draws

/-- The graph of a tree draws it. -/
theorem draws_ofTree (rule : Rule) (tree : Option Logic) (actions : List Action)
    (executions : List Execution) :
    (ofTree rule tree actions executions).Draws tree actions.length where
  ends := map_ends_edges_ofTree rule tree actions executions
  isComparison a := by
    rw [isComparison, List.any_eq_true]
    constructor
    · rintro ⟨n, hn, hcomparison⟩
      obtain ⟨hid, hdata⟩ := Bool.and_eq_true_iff.mp hcomparison
      rcases List.mem_cons.mp hn with rfl | hn
      · cases hdata
      rcases List.mem_append.mp hn with hn | hn
      · cases tree with
        | none => cases hn
        | some t =>
          rw [Option.elim_some, conditionNodes_rootId] at hn
          obtain ⟨⟨p, s⟩, hp, rfl⟩ := List.mem_map.mp hn
          cases s with
          | leaf c =>
            exact ⟨t, rfl, p, c, Logic.mem_positions.mp hp,
              Site.id_injective (beq_iff_eq.mp hid).symm⟩
          | group kind children => cases hdata
      · obtain ⟨i, hi, rfl⟩ := List.mem_mapIdx.mp hn
        cases hdata
    · rintro ⟨t, ht, p, c, hp, rfl⟩
      cases ht
      refine ⟨conditionNode (Site.condition p).id (.leaf c), conditionNode_mem_nodes_ofTree hp, ?_⟩
      rw [Bool.and_eq_true_iff]
      exact ⟨beq_self_eq_true _, rfl⟩

end FlowGraph

open FlowGraph

/-- A compiled graph has no dead ends.  Every node lies on a route from the trigger to an action, a
route from the trigger that cannot go on has come to an action and has passed one comparison, or
none where there is no tree, and the routes to each action are as many as the leaves. -/
theorem Bundle.routes_compile (b : Bundle) (hactions : b.actions ≠ []) :
    (∀ n ∈ b.compile.nodes, ∃ i < b.actions.length, ∃ es es',
      b.compile.Route triggerId es n.id ∧ b.compile.Route n.id es' (actionId i)) ∧
    (∀ es d, b.compile.Route triggerId es d →
      es.length ≤ b.rule.tree?.elim 1 (·.depth + 1) ∧
      (b.compile.outgoing d = [] → (∃ i < b.actions.length, d = actionId i) ∧
        b.compile.comparisonsOn triggerId es = if b.rule.tree?.isSome then 1 else 0)) ∧
    ∀ i < b.actions.length, {es | b.compile.Route triggerId es (actionId i)}.encard =
      b.rule.tree?.elim 1 Logic.leafCount := by
  have h : b.compile.Draws b.rule.tree? b.actions.length := draws_ofTree _ _ _ _
  have htree := b.rule.noEmptyGroup_tree?
  have hcount := List.length_pos_iff.mpr hactions
  refine ⟨fun n hn => ?_, fun es d hes => ⟨h.length_route_le hes, fun hd => ?_⟩,
    fun i hi => h.encard_routes hi⟩
  · have hid := List.mem_map_of_mem (f := Node.id) hn
    rw [compile, map_id_nodes_ofTree, List.mem_map] at hid
    obtain ⟨a, ha, hid⟩ := hid
    obtain ⟨es, hes⟩ := h.exists_route_to htree ha
    obtain ⟨i, hi, es', hes'⟩ := h.exists_route_from htree hcount ha
    exact ⟨i, hi, es, es', hid ▸ hes, hid ▸ hes'⟩
  · obtain ⟨a, ha, rfl⟩ := h.exists_site_of_route hes
    obtain ⟨i, hi, es', hes'⟩ := h.exists_route_from htree hcount ha
    have hend := hes'.eq_of_outgoing_eq_nil hd
    rw [hend] at hes ⊢
    exact ⟨⟨i, hi, rfl⟩, (h.route_action hes).2⟩

/-- A rule with an empty group beside a nested one, and two actions that share an id. -/
def sampleBundle : Bundle where
  rule :=
    { id := "rule-1"
      triggerType := "order"
      logic := some (.group .and [.group .or [],
        .group .or [.leaf ⟨"total", .greaterThan, .null⟩, .leaf ⟨"vip", .equal, .bool true⟩],
        .leaf ⟨"plan", .notEqual, .text "free"⟩]) }
  actions := [⟨"a", "Mail", none⟩, ⟨"a", "Call", some "phone"⟩]
  executions := []

/-- Three routes lead to the second action of the sample. -/
theorem routes_sampleBundle : sampleBundle.actions ≠ [] ∧
    {es | sampleBundle.compile.Route triggerId es (actionId 1)}.encard = 3 :=
  ⟨List.cons_ne_nil _ _,
    (Bundle.routes_compile sampleBundle (List.cons_ne_nil _ _)).2.2 1 (Nat.lt_succ_self 1)⟩

end RuleFlow
