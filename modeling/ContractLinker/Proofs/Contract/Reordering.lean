import ContractLinker.Proofs.Contract.Missing

/-!
# Ordering again

`deploymentOrder_deploymentOrder`: contracts that stand in their deployment order keep it when they
are ordered again. Their graph then has the edges it had before, but its nodes, and the successors
of each node, `Follow` the order. Nodes with different last predecessors have their turns as before.
Those with the same one were told apart by where they stood among its successors, and they stand
there in the order now.
-/

namespace ContractLinker

-- ---------------------------------------------------------------------------
-- Graphs that follow an order
-- ---------------------------------------------------------------------------

namespace Graph

open Relation (TransGen)

variable {α : Type} {g h : Graph α} {row order : List α} {p x : α}

theorem IsLast.congr (hleads : ∀ {a b}, g.Leads a b → h.Leads a b)
    (hback : ∀ {a b}, h.Leads a b → g.Leads a b) (hp : g.IsLast row p x) : h.IsLast row p x :=
  ⟨hleads hp.leads, fun hq hne => hp.precedes (hback hq) hne⟩

variable [DecidableEq α]

/-- The nodes of a graph are a row, and the successors of each node stand as they do in it. -/
structure Follows (g : Graph α) (order : List α) : Prop where
  nodes : g.nodes = order
  successors : ∀ {p x y}, Precedes (g.successors p) x y → Precedes order x y

section
variable (hleads : ∀ {a b}, h.Leads a b ↔ g.Leads a b)
include hleads

/-- The sources of a graph that follows an order are where they were. -/
theorem Follows.sources_eq (hfollows : h.Follows order) (hturn : g.InTurn order) :
    h.sources = g.sources := by
  have hempty : ∀ n, (h.predecessors n).isEmpty = true ↔ ¬ ∃ p, g.Leads p n := by
    intro n
    simp only [List.isEmpty_iff, List.eq_nil_iff_forall_not_mem, mem_predecessors, not_exists]
    exact forall_congr' fun p => not_congr hleads
  obtain ⟨rest, hrest⟩ := hturn.sources
  have hfront : ∀ n ∈ g.sources, (h.predecessors n).isEmpty = true := fun n hn =>
    (hempty n).mpr (mem_sources.mp hn).2
  have hback : ∀ n ∈ rest, ¬ (h.predecessors n).isEmpty = true := by
    intro n hn hno
    have hnode : n ∈ g.nodes := hturn.mem_iff.mp (hrest ▸ List.mem_append_right _ hn)
    have hsource : n ∈ g.sources := mem_sources.mpr ⟨hnode, (hempty n).mp hno⟩
    exact List.disjoint_of_nodup_append (hrest ▸ hturn.nodup) hsource hn
  rw [sources, hfollows.nodes, ← hrest, List.filter_append, List.filter_eq_self.mpr hfront,
    List.filter_eq_nil_iff.mpr hback, List.append_nil]

/-- In a graph that follows an order every node has the turn that it had. -/
theorem InTurn.of_follows (hturn : g.InTurn order) (hfollows : h.Follows order) :
    h.InTurn order where
  nodup := hturn.nodup
  mem_iff := by simp [hfollows.nodes]
  forwards l₁ n l₂ he p hp := hturn.forwards l₁ n l₂ he p (hleads.mp hp)
  sources := hfollows.sources_eq hleads hturn ▸ hturn.sources
  precedes_iff := by
    rintro x y hne ⟨a, ha⟩ ⟨b, hb⟩
    have hiff := hturn.precedes_iff hne ⟨a, hleads.mp ha⟩ ⟨b, hleads.mp hb⟩
    constructor
    · intro hxy
      obtain ⟨p, q, hp, hq, hpq⟩ := hiff.mp hxy
      refine ⟨p, q, hp.congr hleads.mpr hleads.mp, hq.congr hleads.mpr hleads.mp, ?_⟩
      refine hpq.imp_right ?_
      rintro ⟨rfl, -⟩
      refine ⟨rfl, ?_⟩
      have hx : x ∈ h.successors p := mem_successors.mpr (hleads.mpr hp.leads)
      have hy : y ∈ h.successors p := mem_successors.mpr (hleads.mpr hq.leads)
      refine (Precedes.total hx hy hne).resolve_right fun hyx => ?_
      exact hxy.asymm hturn.nodup (hfollows.successors hyx)
    · rintro ⟨p, q, hp, hq, hpq | ⟨-, hxy⟩⟩
      · exact hiff.mpr
          ⟨p, q, hp.congr hleads.mp hleads.mpr, hq.congr hleads.mp hleads.mpr, .inl hpq⟩
      · exact hfollows.successors hxy

/-- A graph with the same edges that follows the order of another is sorted into that order. -/
theorem sort_of_follows (hg : g.WellFormed) (hh : h.WellFormed) (hsort : g.sort = .ok order)
    (hfollows : h.Follows order) : h.sort = .ok order := by
  have hturn := (inTurn_of_sort hg hsort).of_follows hleads hfollows
  cases hother : h.sort with
  | ok other => rw [hturn.unique (inTurn_of_sort hh hother)]
  | error cycle =>
    obtain ⟨n, hn⟩ := (exists_sort_eq_error_iff hh).mp ⟨cycle, hother⟩
    have hback : TransGen g.Leads n n := hn.lift id fun _ _ => hleads.mp
    obtain ⟨_, herror⟩ := (exists_sort_eq_error_iff hg).mpr ⟨n, hback⟩
    exact nomatch hsort.symm.trans herror

end

-- ---------------------------------------------------------------------------
-- Graphs that additions built
-- ---------------------------------------------------------------------------

theorem nodes_addNodes {nodes : List α} (hn : (g.nodes ++ nodes).Nodup) :
    (nodes.foldl addNode g).nodes = g.nodes ++ nodes := by
  induction nodes generalizing g with
  | nil => simp
  | cons n nodes ih =>
    have hnew : n ∉ g.nodes := fun hm => List.disjoint_of_nodup_append hn hm List.mem_cons_self
    have hadd : (g.addNode n).nodes = g.nodes ++ [n] := by rw [addNode_of_not_mem hnew]
    rw [List.foldl_cons, ih (by rw [hadd]; simpa using hn), hadd]
    simp

theorem edges_addNodes (g : Graph α) (nodes : List α) :
    (nodes.foldl addNode g).edges = g.edges := by
  induction nodes generalizing g with
  | nil => rfl
  | cons n nodes ih => simp [ih]

theorem nodes_addEdges {edges : List (α × α)}
    (h : ∀ e ∈ edges, e.1 ∈ g.nodes ∧ e.2 ∈ g.nodes) :
    (edges.foldl (fun g e => g.addEdge e.1 e.2) g).nodes = g.nodes := by
  induction edges generalizing g with
  | nil => rfl
  | cons e edges ih =>
    obtain ⟨⟨h₁, h₂⟩, hrest⟩ := List.forall_mem_cons.mp h
    have hadd : (g.addEdge e.1 e.2).nodes = g.nodes := by
      rw [addEdge_eq, addNode_of_mem h₁, addNode_of_mem h₂]
    rw [List.foldl_cons, ih (by simpa [hadd] using hrest), hadd]

/-- Edges keep the order in which they are added first. -/
theorem edges_addEdges_sublist (g : Graph α) (edges : List (α × α)) :
    (edges.foldl (fun g e => g.addEdge e.1 e.2) g).edges.Sublist (g.edges ++ edges) := by
  induction edges generalizing g with
  | nil => simp
  | cons e edges ih =>
    have hadd : (g.addEdge e.1 e.2).edges.Sublist (g.edges ++ [e]) := by
      rw [addEdge_eq]
      dsimp only
      split <;> simp
    have hrest := (ih (g.addEdge e.1 e.2)).trans (hadd.append_right edges)
    simpa using hrest

end Graph

-- ---------------------------------------------------------------------------
-- Contracts in their order
-- ---------------------------------------------------------------------------

namespace Linked

variable {contracts ordered : List Linked}

/-- The ends of the edges come contract by contract, once for each dependency. -/
theorem pairwise_ends (contracts : List Linked) : ((edges contracts).map Prod.snd).Pairwise
    fun x y => x = y ∨ Precedes (contracts.map (·.id)) x y := by
  simp only [edges, List.map_flatMap, List.map_map, List.pairwise_flatMap]
  refine ⟨fun c _ => ?_, List.pairwise_iff_forall_sublist.mpr fun {c d} hcd => ?_⟩
  · refine List.pairwise_of_forall_mem_list fun x hx y hy => .inl ?_
    rw [List.eq_of_mem_map_const hx, List.eq_of_mem_map_const hy]
  · intro x hx y hy
    rw [List.eq_of_mem_map_const hx, List.eq_of_mem_map_const hy]
    exact .inr (hcd.map fun c : Linked => c.id)

theorem successors_graph_sublist (contracts : List Linked) (p : Int) :
    ((graph contracts).successors p).Sublist ((edges contracts).map Prod.snd) := by
  have hedges := Graph.edges_addEdges_sublist
    ((contracts.map (·.id)).foldl Graph.addNode .empty) (edges contracts)
  rw [Graph.edges_addNodes, ← graph_eq] at hedges
  exact (List.filter_sublist.trans hedges).map _

/-- The graph of contracts that have their dependencies among them follows the row in which they
stand. -/
theorem follows_graph (hids : (contracts.map (·.id)).Nodup) (hclosed : Closed contracts) :
    (graph contracts).Follows (contracts.map (·.id)) := by
  have hadded : ((contracts.map (·.id)).foldl Graph.addNode .empty).nodes = contracts.map (·.id) :=
    Graph.nodes_addNodes (g := .empty) hids
  constructor
  · rw [graph_eq, Graph.nodes_addEdges, hadded]
    intro e he
    rw [hadded]
    obtain ⟨c, hc, he⟩ := List.mem_flatMap.mp he
    obtain ⟨row, hr, rfl⟩ := List.mem_map.mp he
    exact ⟨hclosed c hc row hr, List.mem_map_of_mem hc⟩
  · intro p x y hxy
    have hne : x ≠ y := by
      have hpair := ((wellFormed_graph contracts).nodup_successors p).sublist hxy
      simpa using hpair
    have hends := List.pairwise_iff_forall_sublist.mp (pairwise_ends contracts)
      (hxy.trans (successors_graph_sublist contracts p))
    exact hends.resolve_left hne

/-- Contracts that are ordered already stay as they are. -/
theorem deploymentOrder_of_eq_ok (hids : OwnIds contracts) (hclosed : Closed contracts)
    (h : deploymentOrder contracts = .ok ordered) : deploymentOrder ordered = .ok ordered := by
  obtain ⟨hsort, hsub⟩ := (deploymentOrder_eq_ok_iff hids).mp h
  obtain ⟨other, hok, -, hmem, -⟩ := deploymentOrder_of_sort_eq_ok hids hclosed hsort
  cases h.symm.trans hok
  have hnodup : (ordered.map (·.id)).Nodup :=
    (Graph.inTurn_of_sort (wellFormed_graph contracts) hsort).nodup
  have hclosed' : Closed ordered := by
    intro c hc row hr
    obtain ⟨d, hd, hid⟩ := List.mem_map.mp (hclosed c (hsub hc) row hr)
    exact List.mem_map.mpr ⟨d, (hmem d).mpr hd, hid⟩
  have hleads : ∀ {a b}, (graph ordered).Leads a b ↔ (graph contracts).Leads a b := by
    simp [leads_graph, hmem]
  refine (deploymentOrder_eq_ok_iff (.of_nodup hnodup)).mpr ⟨?_, List.Subset.refl _⟩
  exact Graph.sort_of_follows hleads (wellFormed_graph contracts) (wellFormed_graph ordered) hsort
    (follows_graph hnodup hclosed')

/-- Contracts without cycles that have what they depend on among them are put into an order that
ordering them once more does not change. -/
theorem deploymentOrder_deploymentOrder (hids : OwnIds contracts) (hclosed : Closed contracts)
    (hacyclic : ¬ Circular contracts) :
    ∃ ordered, deploymentOrder contracts = .ok ordered ∧
      deploymentOrder ordered = deploymentOrder contracts := by
  obtain ⟨order, hsort⟩ := (not_circular_iff hids).mp hacyclic
  obtain ⟨ordered, hok, -⟩ := deploymentOrder_of_sort_eq_ok hids hclosed hsort
  exact ⟨ordered, hok, hok ▸ deploymentOrder_of_eq_ok hids hclosed hok⟩

/-- Two contracts depend on the same one, of which the first depends on a later one too. They change
places, and so do they among the successors of the one they share. -/
theorem deploymentOrder_deploymentOrder_shared :
    ∃ x y p q : Linked, OwnIds [x, y, p, q] ∧ Closed [x, y, p, q] ∧ ¬ Circular [x, y, p, q] ∧
      deploymentOrder [x, y, p, q] = .ok [p, q, y, x] ∧
      deploymentOrder [p, q, y, x] = .ok [p, q, y, x] ∧
      (graph [x, y, p, q]).successors p.id = [x.id, y.id] ∧
      (graph [p, q, y, x]).successors p.id = [y.id, x.id] := by
  let program : Program := ⟨[], ⟨⟨1, 1⟩, ⟨1, 1⟩⟩, ""⟩
  let made (id : Int) (name : String) : Contract := ⟨id, name, name, ⟨[1]⟩, "", program⟩
  let x : Linked := { made 0 "X" with dependencies := ⟨[("P", made 2 "P"), ("Q", made 3 "Q")]⟩ }
  let y : Linked := { made 1 "Y" with dependencies := ⟨[("P", made 2 "P")]⟩ }
  let p : Linked := { made 2 "P" with }
  let q : Linked := { made 3 "Q" with }
  have hids : OwnIds [x, y, p, q] := by unfold OwnIds; decide
  have hclosed : Closed [x, y, p, q] := by unfold Closed; decide
  have hsort : (graph [x, y, p, q]).sort = .ok [2, 3, 1, 0] := by decide +kernel
  have hacyclic : ¬ Circular [x, y, p, q] := (not_circular_iff hids).mpr ⟨_, hsort⟩
  have horder : deploymentOrder [x, y, p, q] = .ok [p, q, y, x] :=
    (deploymentOrder_eq_ok_iff hids).mpr ⟨hsort, by decide⟩
  obtain ⟨ordered, hok, hagain⟩ := deploymentOrder_deploymentOrder hids hclosed hacyclic
  obtain rfl : [p, q, y, x] = ordered := Except.ok.inj (horder.symm.trans hok)
  exact ⟨x, y, p, q, hids, hclosed, hacyclic, horder, hagain.trans horder, by decide, by decide⟩

end Linked

end ContractLinker
