import RuleFlow.Proofs.Layout.Links
import RuleFlow.Proofs.Graph.Site

/-!
# Numbered sites

The sweep works with numbered nodes, the graph of a rule is known by its sites.  `Numbering` says
that a number stands for a site and a link between numbers for a link between sites, in the order of
the graph.  The nodes of every graph built from a tree are numbered in this way
(`FlowGraph.numbering`), because no two sites share an id.
-/

namespace RuleFlow

/-- What `f` reads off the target of a link, if the link leads from `a`. -/
def FlowGraph.readFrom {α : Type} (a : Site) (f : Site → Option α) (l : Site × Site) : Option α :=
  if l.1 = a then f l.2 else none

/-- A number for each site of the graph of a tree and so many actions, with the same links. -/
structure Numbering (tree : Option Logic) (actionCount : Nat) {n : Nat} (links : Links n) where
  site : Fin n → Site
  map_site : (List.finRange n).map site = FlowGraph.sites tree actionCount
  map_links : links.map (Prod.map site site) = FlowGraph.links tree actionCount

namespace Numbering

variable {tree : Option Logic} {actionCount n : Nat} {links : Links n}
  (num : Numbering tree actionCount links)

include num

theorem site_injective : Function.Injective num.site := by
  have h : ((List.finRange n).map num.site).Nodup :=
    num.map_site ▸ FlowGraph.sites_nodup tree actionCount
  exact fun u v huv =>
    List.inj_on_of_nodup_map h (List.mem_finRange u) (List.mem_finRange v) huv

theorem site_mem (v : Fin n) : num.site v ∈ FlowGraph.sites tree actionCount :=
  num.map_site ▸ List.mem_map_of_mem (List.mem_finRange v)

theorem getElem_sites (v : Fin n) (h : v < (FlowGraph.sites tree actionCount).length) :
    (FlowGraph.sites tree actionCount)[v.val] = num.site v := by
  simp only [← num.map_site, List.getElem_map, List.getElem_finRange]
  rfl

/-- Every site is that of some node. -/
theorem exists_site {a : Site} (ha : a ∈ FlowGraph.sites tree actionCount) :
    ∃ v, num.site v = a := by
  rw [← num.map_site, List.mem_map] at ha
  obtain ⟨v, -, hv⟩ := ha
  exact ⟨v, hv⟩

/-- Nodes are linked as their sites are. -/
theorem mem_links {u v : Fin n} :
    (u, v) ∈ links ↔ (num.site u, num.site v) ∈ FlowGraph.links tree actionCount := by
  rw [← num.map_links]
  constructor
  · exact fun h => List.mem_map_of_mem (f := Prod.map num.site num.site) h
  · intro h
    obtain ⟨⟨u', v'⟩, hmem, heq⟩ := List.mem_map.mp h
    rw [Prod.map_apply, Prod.mk.injEq] at heq
    cases num.site_injective heq.1
    cases num.site_injective heq.2
    exact hmem

/-- A site that is linked to a numbered one has a number. -/
theorem exists_link {a : Site} {v : Fin n}
    (h : (a, num.site v) ∈ FlowGraph.links tree actionCount) :
    ∃ u, num.site u = a ∧ (u, v) ∈ links := by
  obtain ⟨u, rfl⟩ := num.exists_site (FlowGraph.mem_sites_of_mem_links h).1
  exact ⟨u, rfl, num.mem_links.mpr h⟩

/-- No two edges lead from one node to the same other one. -/
theorem successors_nodup (u : Fin n) : (links.successors u).Nodup := by
  have hlinks : links.Nodup :=
    List.Nodup.of_map _ (num.map_links ▸ FlowGraph.links_nodup tree actionCount)
  refine (hlinks.filter _).map_on fun l hl l' hl' heq => ?_
  have hl := (List.mem_filter.mp hl).2
  have hl' := (List.mem_filter.mp hl').2
  rw [beq_iff_eq] at hl hl'
  exact Prod.ext (hl.trans hl'.symm) heq

/-- What the successors of a node stand for, read off the links of the graph. -/
theorem filterMap_successors {α : Type} (f : Site → Option α) (u : Fin n) :
    (links.successors u).filterMap (fun v => f (num.site v)) =
      (FlowGraph.links tree actionCount).filterMap (FlowGraph.readFrom (num.site u) f) := by
  rw [← num.map_links, List.filterMap_map, Links.successors, List.filterMap_map,
    List.filterMap_filter]
  apply List.filterMap_congr
  intro l _
  by_cases hl : l.1 = u
  · simp [FlowGraph.readFrom, hl]
  · have hsite : num.site l.1 ≠ num.site u := num.site_injective.ne hl
    simp [FlowGraph.readFrom, hl, hsite]

end Numbering

namespace FlowGraph

/-- Where the ids of the nodes are those of different sites, an id names the node at its site. -/
theorem names_iff {nodes : List Node} {sites : List Site} (hsites : sites.Nodup)
    (hids : nodes.map Node.id = sites.map Site.id) (hlen : nodes.length = sites.length)
    {a : Site} {v : Fin nodes.length} : Names nodes a.id v ↔ sites[v.cast hlen] = a := by
  have hid (w : Fin nodes.length) : (nodes.get w).id = sites[w.cast hlen].id := by
    have := List.getElem_of_eq hids (i := w) (by simp)
    simpa using this
  rw [Names, hid, Site.id_injective.eq_iff, and_iff_left_iff_imp]
  rintro rfl w hw heq
  rw [hid, Site.id_injective.eq_iff] at heq
  have := (hsites.getElem_inj_iff).mp heq
  exact absurd (Fin.ext this) (Fin.ne_of_lt hw)

/-- Edges with the ends of links between sites of the graph resolve to these links. -/
theorem map_filterMap_resolve? {nodes : List Node} {site : Fin nodes.length → Site}
    (hnames : ∀ a v, Names nodes (Site.id a) v ↔ site v = a) :
    ∀ {edges : List Edge} {ls : List (Site × Site)},
    edges.map Edge.ends = ls.map idPair →
    (∀ l ∈ ls, (∃ u, site u = l.1) ∧ ∃ v, site v = l.2) →
    (edges.filterMap (resolve? nodes)).map (Prod.map site site) = ls
  | [], [], _, _ => rfl
  | e :: edges, l :: ls, hends, hmem => by
    rw [List.map_cons, List.map_cons, List.cons.injEq] at hends
    obtain ⟨⟨u, hu⟩, ⟨v, hv⟩⟩ := hmem l List.mem_cons_self
    have hends' : e.source = l.1.id ∧ e.target = l.2.id := Prod.ext_iff.mp hends.1
    have hresolve : resolve? nodes e = some (u, v) := by
      rw [resolve?_eq_some, hends'.1, hends'.2]
      exact ⟨(hnames _ _).mpr hu, (hnames _ _).mpr hv⟩
    rw [List.filterMap_cons_some hresolve, List.map_cons,
      map_filterMap_resolve? hnames hends.2 fun l hl => hmem l (List.mem_cons_of_mem _ hl),
      Prod.map_apply, hu, hv]

variable (rule : Rule) (tree : Option Logic) (actions : List Action) (executions : List Execution)

theorem length_nodes_ofTree : (ofTree rule tree actions executions).nodes.length =
    (sites tree actions.length).length := by
  have := congrArg List.length (map_id_nodes_ofTree rule tree actions executions)
  simpa using this

/-- The nodes of the graph of a tree stand for its sites, in order. -/
def numbering : Numbering tree actions.length
    (linksOf (ofTree rule tree actions executions).nodes
      (ofTree rule tree actions executions).edges) where
  site v := (sites tree actions.length)[v.cast (length_nodes_ofTree rule tree actions executions)]
  map_site := by
    apply List.ext_getElem
    · simp [length_nodes_ofTree]
    · intro i h h'
      simp
  map_links := by
    have hnames {a : Site} {v} := names_iff (a := a) (v := v)
      (sites_nodup tree actions.length) (map_id_nodes_ofTree rule tree actions executions)
      (length_nodes_ofTree rule tree actions executions)
    refine map_filterMap_resolve? (fun a v => hnames)
      (map_ends_edges_ofTree rule tree actions executions) fun l hl => ?_
    have hnumber (a : Site) (ha : a ∈ sites tree actions.length) :
        ∃ v : Fin (ofTree rule tree actions executions).nodes.length, (sites tree actions.length)[
          v.cast (length_nodes_ofTree rule tree actions executions)] = a := by
      obtain ⟨i, hi, rfl⟩ := List.mem_iff_getElem.mp ha
      exact ⟨⟨i, by rwa [length_nodes_ofTree]⟩, rfl⟩
    obtain ⟨h, h'⟩ := mem_sites_of_mem_links hl
    exact ⟨hnumber l.1 h, hnumber l.2 h'⟩

end FlowGraph

end RuleFlow
