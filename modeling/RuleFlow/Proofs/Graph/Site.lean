import RuleFlow.Graph.Compile
import RuleFlow.Proofs.Logic.Position
import Mathlib.Data.List.Nodup

/-!
# Sites of a flow graph

Ids are generated from the sites of a rule: the trigger, the index paths of its condition tree, and
the indices of its actions.  Different sites have different ids (`Site.id_injective`), so a graph
can be read as a list of sites with pairs of sites as links.  `FlowGraph.map_id_nodes_ofTree` and
`FlowGraph.map_ends_edges_ofTree` say which sites and which links, in the order of the graph, and
`FlowGraph.conditionNodes_eq_map` what the condition nodes are.
-/

namespace RuleFlow

/-! ## Counts as text -/

theorem isDigit_of_mem_countText {n : Nat} {c : Char} (h : c ∈ countText n) : c.isDigit :=
  Nat.isDigit_of_mem_toDigits (by decide) (by decide) h

/-- A count ends where the first character follows that is no digit. -/
theorem takeWhile_isDigit_countText_append (n : Nat) {rest : List Char}
    (h : rest.head?.all (!·.isDigit)) :
    (countText n ++ rest).takeWhile Char.isDigit = countText n := by
  rw [List.takeWhile_append_of_pos fun c hc => isDigit_of_mem_countText hc]
  cases rest with
  | nil => simp
  | cons c rest =>
    have hc : ¬ c.isDigit = true := by simpa using h
    rw [List.takeWhile_cons_of_neg hc, List.append_nil]

/-- A count can be taken off a text in which no further digit follows it. -/
theorem countText_append_inj {m n : Nat} {r r' : List Char} (hr : r.head?.all (!·.isDigit))
    (hr' : r'.head?.all (!·.isDigit)) (h : countText m ++ r = countText n ++ r') :
    m = n ∧ r = r' := by
  have hcount := congrArg (List.takeWhile Char.isDigit) h
  rw [takeWhile_isDigit_countText_append m hr, takeWhile_isDigit_countText_append n hr'] at hcount
  refine ⟨?_, List.append_cancel_left (hcount ▸ h)⟩
  have hvalue := congrArg (Nat.ofDigitChars 10 · 0) hcount
  simpa only [countText, digitsOf, Nat.ofDigitChars_ten_toDigits] using hvalue

/-! ## Sites -/

/-- Where in a rule a node of its graph comes from. -/
inductive Site where
  | trigger
  | condition (path : List Nat)
  | action (index : Nat)
deriving DecidableEq, Repr

namespace Site

open FlowGraph

/-- The id of the node at a site. -/
def id : Site → String
  | .trigger => triggerId
  | .condition path => path.foldl childId rootId
  | .action index => actionId index

@[simp] theorem id_trigger : trigger.id = triggerId := rfl

@[simp] theorem id_action (i : Nat) : (action i).id = actionId i := rfl

theorem id_condition_concat (p : List Nat) (i : Nat) :
    (condition (p ++ [i])).id = childId (condition p).id i := by
  rw [id, id, List.foldl_append]
  rfl

/-- The indices of a path as text, each led by a dash. -/
def pathText (p : List Nat) : List Char := p.flatMap fun i => '-' :: countText i

/-- Each index of a path stands behind a hyphen. -/
theorem pathText_cons (i : Nat) (p : List Nat) :
    pathText (i :: p) = '-' :: (countText i ++ pathText p) := rfl

theorem toList_foldl_childId (p : List Nat) (start : String) :
    (p.foldl childId start).toList = start.toList ++ pathText p := by
  induction p generalizing start with
  | nil => simp [pathText]
  | cons i p ih =>
    rw [List.foldl_cons, ih, childId, String.toList_append, String.toList_append,
      String.toList_ofList, pathText_cons]
    simp

/-- The id of a condition is that of the root with the path behind it. -/
theorem toList_id_condition (p : List Nat) :
    (condition p).id.toList = rootId.toList ++ pathText p :=
  toList_foldl_childId p rootId

/-- A text that follows a path without another index: none, or a dash and then no digit. -/
def EndsPath (r : List Char) : Prop := r = [] ∨ ∃ c s, r = '-' :: c :: s ∧ c.isDigit = false

theorem endsPath_nil : EndsPath [] := .inl rfl

/-- An id behind a dash starts with a letter. -/
theorem endsPath_dash_id (a : Site) : EndsPath ('-' :: a.id.toList) := by
  cases a with
  | trigger => exact .inr ⟨'t', _, rfl, rfl⟩
  | condition p =>
    rw [toList_id_condition]
    exact .inr ⟨'c', _, rfl, rfl⟩
  | action i =>
    rw [id_action, actionId, String.toList_append]
    exact .inr ⟨'a', _, rfl, rfl⟩

theorem EndsPath.head?_append {r : List Char} (hr : EndsPath r) (p : List Nat) :
    (pathText p ++ r).head?.all (!·.isDigit) := by
  cases p with
  | nil => obtain rfl | ⟨c, s, rfl, -⟩ := hr <;> rfl
  | cons i p => rfl

/-- A path that goes on is no end of a path. -/
theorem not_endsPath_cons (i : Nat) (p : List Nat) (r : List Char) :
    ¬ EndsPath (pathText (i :: p) ++ r) := by
  have hne : countText i ≠ [] := Nat.toDigits_ne_nil
  obtain ⟨d, ds, hd⟩ := List.exists_cons_of_ne_nil hne
  have hdigit : d.isDigit = true := isDigit_of_mem_countText (hd ▸ List.mem_cons_self)
  rw [pathText_cons, hd]
  rintro (h | ⟨c, s, h, hc⟩)
  · cases h
  · cases h
    exact Bool.false_ne_true (hc.symm.trans hdigit)

/-- A path can be taken off a text in which no further index follows it. -/
theorem pathText_append_inj : ∀ {p q : List Nat} {r r' : List Char}, EndsPath r → EndsPath r' →
    pathText p ++ r = pathText q ++ r' → p = q ∧ r = r'
  | [], [], _, _, _, _, h => ⟨rfl, h⟩
  | [], j :: q, _, r', hr, _, h => absurd (h ▸ hr) (not_endsPath_cons j q r')
  | i :: p, [], r, _, _, hr', h => absurd (h ▸ hr') (not_endsPath_cons i p r)
  | i :: p, j :: q, r, r', hr, hr', h => by
    rw [pathText_cons, pathText_cons, List.cons_append, List.cons_append, List.append_assoc,
      List.append_assoc, List.cons.injEq] at h
    obtain ⟨rfl, hrest⟩ := countText_append_inj (hr.head?_append p) (hr'.head?_append q) h.2
    obtain ⟨rfl, rfl⟩ := pathText_append_inj hr hr' hrest
    exact ⟨rfl, rfl⟩

/-- The id of a site can be taken off a text in which no further index follows it. -/
theorem id_append_inj {a b : Site} {r r' : List Char} (hr : EndsPath r) (hr' : EndsPath r')
    (h : a.id.toList ++ r = b.id.toList ++ r') : a = b ∧ r = r' := by
  cases a <;> cases b
  case trigger.trigger => exact ⟨rfl, List.append_cancel_left h⟩
  case condition.condition p q =>
    rw [toList_id_condition, toList_id_condition, List.append_assoc, List.append_assoc] at h
    obtain ⟨rfl, rfl⟩ := pathText_append_inj hr hr' (List.append_cancel_left h)
    exact ⟨rfl, rfl⟩
  case action.action i j =>
    simp only [id_action, actionId, String.toList_append, String.toList_ofList,
      List.append_assoc] at h
    obtain ⟨rfl, rfl⟩ := countText_append_inj (hr.head?_append []) (hr'.head?_append [])
      (List.append_cancel_left h)
    exact ⟨rfl, rfl⟩
  -- ids of different kinds differ in their first letter
  all_goals simp [toList_id_condition, triggerId, rootId, actionId] at h

/-- Different sites have different ids. -/
theorem id_injective : Function.Injective Site.id := by
  intro a b h
  have hlist : a.id.toList ++ [] = b.id.toList ++ [] := by rw [h]
  exact (id_append_inj endsPath_nil endsPath_nil hlist).1

end Site

/-- The ends of an edge. -/
def Edge.ends (e : Edge) : String × String := (e.source, e.target)

namespace FlowGraph

open Site (id_condition_concat)

/-! ## Nodes -/

mutual

/-- The condition nodes of a tree, one for each position in document order. -/
theorem conditionNodes_eq_map : ∀ (base : List Nat) (t : Logic),
    conditionNodes (Site.condition base).id t =
      t.positions.map fun x => conditionNode (Site.condition (base ++ x.1)).id x.2
  | base, .leaf c => by simp [conditionNodes, Logic.positions]
  | base, .group kind children => by
    rw [conditionNodes, childNodes_eq_map base 0 children, Logic.positions, List.map_cons,
      List.append_nil]

theorem childNodes_eq_map : ∀ (base : List Nat) (index : Nat) (ts : List Logic),
    childNodes (Site.condition base).id index ts =
      (Logic.positionsFrom index ts).map fun x =>
        conditionNode (Site.condition (base ++ x.1)).id x.2
  | _, _, [] => rfl
  | base, index, t :: ts => by
    rw [childNodes, ← id_condition_concat, conditionNodes_eq_map (base ++ [index]) t,
      childNodes_eq_map base (index + 1) ts, Logic.positionsFrom, List.map_append, List.map_map]
    simp only [Function.comp_def, List.append_assoc, List.singleton_append]

end

/-- The condition nodes of a whole tree. -/
theorem conditionNodes_rootId (t : Logic) : conditionNodes rootId t =
    t.positions.map fun x => conditionNode (Site.condition x.1).id x.2 :=
  conditionNodes_eq_map [] t

/-- The sites of the graph of a tree and so many actions. -/
def sites (tree : Option Logic) (actionCount : Nat) : List Site :=
  .trigger :: (tree.elim [] fun t => t.paths.map .condition) ++
    (List.range actionCount).map .action

/-- The positions of the tree are the sites of conditions. -/
theorem condition_mem_sites {t : Logic} {actionCount : Nat} {p : List Nat} :
    .condition p ∈ sites (some t) actionCount ↔ p ∈ t.paths := by simp [sites]

theorem action_mem_sites {tree : Option Logic} {actionCount i : Nat} :
    .action i ∈ sites tree actionCount ↔ i < actionCount := by cases tree <;> simp [sites]

/-- What is the same for all nodes of a site is read off the sites. -/
theorem map_nodes_ofTree {α : Type} {f : Node → α} {g : Site → α} (rule : Rule)
    (tree : Option Logic) (actions : List Action) (executions : List Execution)
    (htrigger : f (triggerNode rule executions) = g .trigger)
    (hcondition : ∀ p t, f (conditionNode (Site.condition p).id t) = g (.condition p))
    (haction : ∀ i a, f (actionNode executions i a) = g (.action i)) :
    (ofTree rule tree actions executions).nodes.map f = (sites tree actions.length).map g := by
  have hactions : (actions.mapIdx (actionNode executions)).map f =
      ((List.range actions.length).map Site.action).map g := by
    apply List.ext_getElem <;> simp [haction]
  cases tree with
  | none => simp [ofTree, sites, hactions, htrigger]
  | some t =>
    simp [ofTree, sites, hactions, htrigger, conditionNodes_rootId, Logic.paths, hcondition]

/-- The nodes of a graph stand for its sites. -/
theorem map_id_nodes_ofTree (rule : Rule) (tree : Option Logic) (actions : List Action)
    (executions : List Execution) : (ofTree rule tree actions executions).nodes.map Node.id =
      (sites tree actions.length).map Site.id :=
  map_nodes_ofTree rule tree actions executions rfl (fun _ _ => rfl) fun _ _ => rfl

/-- Every subtree has its node. -/
theorem conditionNode_mem_nodes_ofTree {rule : Rule} {t s : Logic} {actions : List Action}
    {executions : List Execution} {p : List Nat} (hp : t.subtree? p = some s) :
    conditionNode (Site.condition p).id s ∈ (ofTree rule (some t) actions executions).nodes := by
  refine List.mem_cons_of_mem _ (List.mem_append_left _ ?_)
  rw [Option.elim_some, conditionNodes_rootId]
  exact List.mem_map.mpr ⟨(p, s), Logic.mem_positions.mpr hp, rfl⟩

/-! ## Links -/

/-- The links from a site to so many actions. -/
def linksToActions (actionCount : Nat) (source : Site) : List (Site × Site) :=
  (List.range actionCount).map fun i => (source, .action i)

/-- The links for which a position of the tree at `base` accounts: the one that leads there, to the
root of the tree from `parent`, and those from a leaf to the actions. -/
def linksAt (actionCount : Nat) (parent : Site) (base : List Nat) (x : List Nat × Logic) :
    List (Site × Site) :=
  (if x.1 = [] then parent else .condition (base ++ x.1.dropLast), .condition (base ++ x.1)) ::
    if x.2.isLeaf then linksToActions actionCount (.condition (base ++ x.1)) else []

/-- A pair of sites as the ends of an edge. -/
def idPair (l : Site × Site) : String × String := (l.1.id, l.2.id)

theorem map_ends_fanOut (actionCount : Nat) (source : Site) :
    (fanOut source.id (actionIds actionCount)).map Edge.ends =
      (linksToActions actionCount source).map idPair := by
  simp [fanOut, actionIds, linksToActions, Edge.ends, Edge.between, idPair, Function.comp_def]

mutual

/-- The edges of a tree, position by position in document order. -/
theorem map_ends_conditionEdges : ∀ (actionCount : Nat) (parent : Site) (branch : Option Branch)
    (base : List Nat) (t : Logic),
    (conditionEdges (actionIds actionCount) parent.id branch (Site.condition base).id t).map
      Edge.ends = (t.positions.flatMap (linksAt actionCount parent base)).map idPair
  | actionCount, parent, branch, base, .leaf c => by
    rw [conditionEdges, List.map_cons, map_ends_fanOut]
    simp [Logic.positions, linksAt, Logic.isLeaf, Edge.ends, Edge.between, idPair]
  | actionCount, parent, branch, base, .group kind children => by
    rw [conditionEdges, List.map_cons,
      map_ends_childEdges actionCount parent base children.length 0 children]
    simp [Logic.positions, linksAt, Logic.isLeaf, Edge.ends, Edge.between, idPair]

theorem map_ends_childEdges : ∀ (actionCount : Nat) (parent : Site) (base : List Nat)
    (count index : Nat) (ts : List Logic),
    (childEdges (actionIds actionCount) (Site.condition base).id count index ts).map Edge.ends =
      ((Logic.positionsFrom index ts).flatMap (linksAt actionCount parent base)).map idPair
  | _, _, _, _, _, [] => rfl
  | actionCount, parent, base, count, index, t :: ts => by
    have hshift : ∀ x : List Nat × Logic,
        linksAt actionCount (.condition base) (base ++ [index]) x =
          linksAt actionCount parent base (index :: x.1, x.2) := by
      rintro ⟨p, s⟩
      by_cases hp : p = []
      · simp [linksAt, hp]
      · simp [linksAt, hp, List.dropLast_cons_of_ne_nil hp]
    rw [childEdges, List.map_append, ← id_condition_concat,
      map_ends_conditionEdges actionCount (.condition base) _ (base ++ [index]) t,
      map_ends_childEdges actionCount parent base count (index + 1) ts, Logic.positionsFrom,
      List.flatMap_append, List.map_append, List.flatMap_map]
    rw [funext hshift]

end

/-- The links of the graph of a tree and so many actions. -/
def links (tree : Option Logic) (actionCount : Nat) : List (Site × Site) :=
  tree.elim (linksToActions actionCount .trigger) fun t =>
    t.positions.flatMap (linksAt actionCount .trigger [])

/-- The edges of a graph stand for its links. -/
theorem map_ends_edges_ofTree (rule : Rule) (tree : Option Logic) (actions : List Action)
    (executions : List Execution) : (ofTree rule tree actions executions).edges.map Edge.ends =
      (links tree actions.length).map idPair := by
  cases tree with
  | none => exact map_ends_fanOut actions.length .trigger
  | some t => exact map_ends_conditionEdges actions.length .trigger none [] t

/-- Every edge stands for a link. -/
theorem exists_link_of_mem_edges_ofTree {rule : Rule} {tree : Option Logic} {actions : List Action}
    {executions : List Execution} {e : Edge} (h : e ∈ (ofTree rule tree actions executions).edges) :
    ∃ a b, (a, b) ∈ links tree actions.length ∧ a.id = e.source ∧ b.id = e.target := by
  have hends := List.mem_map_of_mem (f := Edge.ends) h
  rw [map_ends_edges_ofTree, List.mem_map] at hends
  obtain ⟨⟨a, b⟩, hlink, heq⟩ := hends
  exact ⟨a, b, hlink, Prod.ext_iff.mp heq⟩

/-! ## Which links there are -/

@[simp] theorem mem_linksToActions {actionCount : Nat} {source : Site} {l : Site × Site} :
    l ∈ linksToActions actionCount source ↔ ∃ i < actionCount, l = (source, .action i) := by
  simp [linksToActions, eq_comm]

/-- The site from which the condition at a path is reached. -/
def above (p : List Nat) : Site := if p = [] then .trigger else .condition p.dropLast

theorem above_eq_condition {p q : List Nat} :
    above q = .condition p ↔ q ≠ [] ∧ q.dropLast = p := by
  by_cases hq : q = [] <;> simp [above, hq]

theorem above_ne_action (p : List Nat) (i : Nat) : above p ≠ .action i := by
  rw [above]
  split <;> exact Site.noConfusion

/-- The links of a tree, position by position: one into it, and from a leaf one to every action. -/
theorem links_some (t : Logic) (actionCount : Nat) : links (some t) actionCount =
    t.positions.flatMap fun x => (above x.1, .condition x.1) ::
      if x.2.isLeaf then linksToActions actionCount (.condition x.1) else [] := by
  have h : ∀ x, linksAt actionCount .trigger [] x = (above x.1, .condition x.1) ::
      if x.2.isLeaf then linksToActions actionCount (.condition x.1) else [] := fun _ => rfl
  rw [links, Option.elim_some, funext h]

/-- Every condition is reached from above, and every action from every leaf. -/
theorem mem_links_some {t : Logic} {actionCount : Nat} {a b : Site} :
    (a, b) ∈ links (some t) actionCount ↔
      (∃ p ∈ t.paths, a = above p ∧ b = .condition p) ∨
      ∃ p c, t.subtree? p = some (.leaf c) ∧
        ∃ i < actionCount, a = .condition p ∧ b = .action i := by
  rw [links_some, List.mem_flatMap]
  constructor
  · rintro ⟨⟨p, s⟩, hp, hmem⟩
    rcases List.mem_cons.mp hmem with h | h
    · cases h
      exact .inl ⟨p, List.mem_map_of_mem (f := Prod.fst) hp, rfl, rfl⟩
    · cases s with
      | leaf c =>
        obtain ⟨i, hi, h⟩ := mem_linksToActions.mp h
        cases h
        exact .inr ⟨p, c, Logic.mem_positions.mp hp, i, hi, rfl, rfl⟩
      | group kind children => cases h
  · rintro (⟨p, hp, rfl, rfl⟩ | ⟨p, c, hp, i, hi, rfl, rfl⟩)
    · obtain ⟨x, hx, rfl⟩ := List.mem_map.mp hp
      exact ⟨x, hx, List.mem_cons_self⟩
    · refine ⟨(p, .leaf c), Logic.mem_positions.mpr hp, List.mem_cons_of_mem _ ?_⟩
      exact mem_linksToActions.mpr ⟨i, hi, rfl⟩

/-- The path of the position that accounts for a link. -/
def owner : Site × Site → List Nat
  | (_, .condition p) | (.condition p, _) => p
  | _ => []

/-- Every link belongs to the position that it leads into, or at which it leaves for an action. -/
theorem owner_eq {actionCount : Nat} {x : List Nat × Logic} {l : Site × Site}
    (h : l ∈ (above x.1, .condition x.1) ::
      if x.2.isLeaf then linksToActions actionCount (.condition x.1) else []) : owner l = x.1 := by
  rcases List.mem_cons.mp h with rfl | h
  · rfl
  · split at h
    · obtain ⟨i, -, rfl⟩ := mem_linksToActions.mp h
      rfl
    · cases h

theorem linksToActions_nodup (actionCount : Nat) (source : Site) :
    (linksToActions actionCount source).Nodup :=
  List.Nodup.map (fun i j h => by simpa using h) List.nodup_range

/-- No two links are the same. -/
theorem links_nodup (tree : Option Logic) (actionCount : Nat) : (links tree actionCount).Nodup := by
  cases tree with
  | none => exact linksToActions_nodup actionCount .trigger
  | some t =>
    have hpositions : t.positions.Pairwise fun x y => x.1 ≠ y.1 :=
      List.pairwise_map.mp (Logic.paths_nodup t)
    rw [links_some, List.nodup_flatMap]
    refine ⟨fun x _ => List.nodup_cons.mpr ⟨?_, ?_⟩, hpositions.imp fun hne l hx hy => ?_⟩
    · split <;> simp
    · split
      · exact linksToActions_nodup actionCount _
      · exact List.nodup_nil
    · exact hne ((owner_eq hx).symm.trans (owner_eq hy))

/-- No site is listed twice. -/
theorem sites_nodup (tree : Option Logic) (actionCount : Nat) :
    (sites tree actionCount).Nodup := by
  have hactions : ((List.range actionCount).map Site.action).Nodup :=
    List.Nodup.map (fun i j h => by simpa using h) List.nodup_range
  cases tree with
  | none => simpa [sites] using hactions
  | some t =>
    have hconditions : (t.paths.map Site.condition).Nodup :=
      List.Nodup.map (fun p q h => by simpa using h) (Logic.paths_nodup t)
    simp only [sites, Option.elim_some, List.cons_append, List.nodup_cons, List.nodup_append]
    refine ⟨by simp, hconditions, hactions, fun a ha b hb => ?_⟩
    obtain ⟨p, -, rfl⟩ := List.mem_map.mp ha
    obtain ⟨i, -, rfl⟩ := List.mem_map.mp hb
    exact Site.noConfusion

theorem above_mem_sites {t : Logic} {p : List Nat} (hp : p ∈ t.paths) (actionCount : Nat) :
    above p ∈ sites (some t) actionCount := by
  by_cases hne : p = []
  · simp [above, hne, sites]
  · simp [above, hne, sites, Logic.dropLast_mem_paths hp hne]

/-- Both ends of a link are sites of the graph. -/
theorem mem_sites_of_mem_links {tree : Option Logic} {actionCount : Nat} {l : Site × Site}
    (h : l ∈ links tree actionCount) :
    l.1 ∈ sites tree actionCount ∧ l.2 ∈ sites tree actionCount := by
  cases tree with
  | none =>
    obtain ⟨i, hi, rfl⟩ := mem_linksToActions.mp h
    simp [sites, hi]
  | some t =>
    obtain ⟨a, b⟩ := l
    rcases mem_links_some.mp h with ⟨p, hp, rfl, rfl⟩ | ⟨p, c, hp, i, hi, rfl, rfl⟩
    · exact ⟨above_mem_sites hp actionCount, by simp [sites, hp]⟩
    · have hmem : p ∈ t.paths := by simp [Logic.mem_paths, hp]
      simp [sites, hi, hmem]

section

variable {tree : Option Logic} {actionCount : Nat} {a : Site}

/-- The actions are linked from the same sites. -/
theorem action_mem_links {i j : Nat} (hj : j < actionCount)
    (h : (a, .action i) ∈ links tree actionCount) : (a, .action j) ∈ links tree actionCount := by
  cases tree with
  | none =>
    obtain ⟨i, -, h⟩ := mem_linksToActions.mp h
    cases h
    exact mem_linksToActions.mpr ⟨j, hj, rfl⟩
  | some t =>
    rcases mem_links_some.mp h with ⟨p, -, -, h⟩ | ⟨p, c, hp, -, -, rfl, -⟩
    · cases h
    · exact mem_links_some.mpr (.inr ⟨p, c, hp, j, hj, rfl, rfl⟩)

theorem lt_of_action_mem_links {i : Nat} (h : (a, .action i) ∈ links tree actionCount) :
    i < actionCount := by
  have := (mem_sites_of_mem_links h).2
  cases tree <;> simpa [sites] using this

/-- No link leads to the trigger. -/
theorem trigger_notMem_links : (a, .trigger) ∉ links tree actionCount := by
  intro h
  cases tree with
  | none =>
    obtain ⟨i, -, h⟩ := mem_linksToActions.mp h
    cases h
  | some t =>
    rcases mem_links_some.mp h with ⟨p, -, -, h⟩ | ⟨p, c, -, i, -, -, h⟩ <;> cases h

/-- A condition is linked from above alone. -/
theorem eq_above_of_mem_links {p : List Nat} (h : (a, .condition p) ∈ links tree actionCount) :
    a = above p := by
  cases tree with
  | none =>
    obtain ⟨i, -, h⟩ := mem_linksToActions.mp h
    cases h
  | some t =>
    rcases mem_links_some.mp h with ⟨q, -, ha, hp⟩ | ⟨q, c, -, i, -, -, hp⟩
    · cases hp
      exact ha
    · cases hp

end

end FlowGraph

/-- The logic of a rule without empty groups has none. -/
theorem Rule.noEmptyGroup_tree? (rule : Rule) : ∀ t ∈ rule.tree?, t.NoEmptyGroup := by
  intro t ht
  obtain ⟨s, -, hs⟩ := Option.bind_eq_some_iff.mp ht
  exact Logic.noEmptyGroup_normalize hs

end RuleFlow
