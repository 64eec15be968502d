import ContractLinker.Proofs.Graph.Queue

/-!
# Renamed nodes and leaves

What the order of a graph does not depend on. `sort_map`: sorting does not see what the nodes are
called. `sort_of_without`: a node that leads nowhere can be left out, and the others keep their
order; they have their turns in it as before, and that order is unique.
-/

namespace ContractLinker.Graph

open Relation (TransGen)

-- ---------------------------------------------------------------------------
-- Renamed nodes
-- ---------------------------------------------------------------------------

section
variable {α β : Type} {g : Graph α} {f : α → β} {a b n : α} {left queue : List α}

/-- The graph with other names for its nodes. -/
def map (f : α → β) (g : Graph α) : Graph β := ⟨g.nodes.map f, g.edges.map (Prod.map f f)⟩

variable [DecidableEq α] [DecidableEq β]

theorem map_addNode (hf : f.Injective) (g : Graph α) (n : α) :
    (g.addNode n).map f = (g.map f).addNode (f n) := by
  have hmem : f n ∈ (g.map f).nodes ↔ n ∈ g.nodes := List.mem_map_of_injective hf
  by_cases hn : n ∈ g.nodes
  · rw [addNode_of_mem hn, addNode_of_mem (hmem.mpr hn)]
  · rw [addNode_of_not_mem hn, addNode_of_not_mem fun h => hn (hmem.mp h)]
    simp [map]

theorem map_addEdge (hf : f.Injective) (g : Graph α) (a b : α) :
    (g.addEdge a b).map f = (g.map f).addEdge (f a) (f b) := by
  have hmem : (f a, f b) ∈ (g.map f).edges ↔ (a, b) ∈ g.edges :=
    List.mem_map_of_injective (hf.prodMap hf) (a := (a, b))
  rw [addEdge_eq, addEdge_eq, ← map_addNode hf, ← map_addNode hf]
  by_cases he : (a, b) ∈ g.edges
  · rw [if_pos he, if_pos (hmem.mpr he)]
    rfl
  · rw [if_neg he, if_neg fun h => he (hmem.mp h)]
    simp [map]

theorem map_addNodes (hf : f.Injective) (g : Graph α) (nodes : List α) :
    (nodes.foldl addNode g).map f = (nodes.map f).foldl addNode (g.map f) := by
  rw [List.foldl_map]
  exact (List.foldl_hom (map f) fun g n => (map_addNode hf g n).symm).symm

theorem map_addEdges (hf : f.Injective) (g : Graph α) (edges : List (α × α)) :
    (edges.foldl (fun g e => g.addEdge e.1 e.2) g).map f =
      (edges.map (Prod.map f f)).foldl (fun g e => g.addEdge e.1 e.2) (g.map f) := by
  rw [List.foldl_map]
  exact (List.foldl_hom (map f) fun g e => (map_addEdge hf g e.1 e.2).symm).symm

theorem successors_map (hf : f.Injective) (g : Graph α) (n : α) :
    (g.map f).successors (f n) = (g.successors n).map f := by
  simp [successors, map, List.filter_map, Function.comp_def, hf.eq_iff]

theorem predecessors_map (hf : f.Injective) (g : Graph α) (n : α) :
    (g.map f).predecessors (f n) = (g.predecessors n).map f := by
  simp [predecessors, map, List.filter_map, Function.comp_def, hf.eq_iff]

theorem isReady_map (hf : f.Injective) (g : Graph α) (left : List α) (n : α) :
    (g.map f).isReady (left.map f) (f n) = g.isReady left n := by
  rw [isReady, isReady, predecessors_map hf, List.all_map]
  exact congrArg (g.predecessors n).all (funext fun p => by simp [hf.eq_iff])

/-- What is ready is so under its new name. -/
theorem filter_isReady_map (hf : f.Injective) (g : Graph α) (left nodes : List α) :
    (nodes.map f).filter ((g.map f).isReady (left.map f)) =
      (nodes.filter (g.isReady left)).map f := by
  rw [List.filter_map]
  exact congrArg (fun p => (nodes.filter p).map f) (funext fun n => isReady_map hf g left n)

theorem drain_map (hf : f.Injective) (g : Graph α) (count : Nat) (left queue : List α) :
    (g.map f).drain count (left.map f) (queue.map f) = (g.drain count left queue).map f := by
  induction count generalizing left queue with
  | zero => rfl
  | succ count ih =>
    cases queue with
    | nil => rfl
    | cons n queue =>
      have hleft : left.map f ++ [f n] = (left ++ [n]).map f := by simp
      rw [List.map_cons, drain, drain, ← ih, hleft, successors_map hf, filter_isReady_map hf,
        ← List.map_append]

theorem leaving_map (hf : f.Injective) (g : Graph α) : (g.map f).leaving = g.leaving.map f := by
  have hlength : (g.map f).nodes.length = g.nodes.length := List.length_map f
  rw [leaving, leaving, hlength, ← drain_map hf, ← filter_isReady_map hf]
  rfl

/-- Sorting does not see what the nodes are called. -/
theorem sort_map (hf : f.Injective) {order : List α} (h : g.sort = .ok order) :
    (g.map f).sort = .ok (order.map f) := by
  obtain ⟨hlength, rfl⟩ := sort_eq_ok_iff.mp h
  refine sort_eq_ok_iff.mpr ⟨?_, (leaving_map hf g).symm⟩
  rw [leaving_map hf, List.length_map, hlength]
  exact (List.length_map f).symm

end

-- ---------------------------------------------------------------------------
-- Leaves
-- ---------------------------------------------------------------------------

section
variable {α : Type} [DecidableEq α] {g : Graph α} {l order : List α} {m n p x y : α}

/-- A node without successors. -/
def IsLeaf (g : Graph α) (n : α) : Prop := ∀ m, ¬ g.Leads n m

/-- The graph without a node and its edges. -/
def without (g : Graph α) (n : α) : Graph α :=
  ⟨g.nodes.filter (· ≠ n), g.edges.filter fun e => e.1 ≠ n ∧ e.2 ≠ n⟩

theorem IsLeaf.leads_without_iff (hn : g.IsLeaf n) :
    (g.without n).Leads x y ↔ g.Leads x y ∧ y ≠ n := by
  have hx : g.Leads x y → x ≠ n := fun hxy he => hn y (he ▸ hxy)
  simp only [without, Leads, List.mem_filter, decide_eq_true_eq] at hx ⊢
  tauto

theorem WellFormed.without (hg : g.WellFormed) : (g.without n).WellFormed := by
  refine ⟨hg.nodes_nodup.filter _, hg.edges_nodup.filter _, fun {x y} hxy => ?_⟩
  obtain ⟨hxy, hne⟩ := List.mem_filter.mp hxy
  obtain ⟨hx, hy⟩ := hg.ends hxy
  obtain ⟨hxn, hyn⟩ := of_decide_eq_true hne
  exact ⟨List.mem_filter.mpr ⟨hx, decide_eq_true hxn⟩, List.mem_filter.mpr ⟨hy, decide_eq_true hyn⟩⟩

theorem IsLeaf.transGen_without (hn : g.IsLeaf n) (h : TransGen g.Leads x y) (hy : y ≠ n) :
    TransGen (g.without n).Leads x y := by
  induction h with
  | single hxy => exact .single (hn.leads_without_iff.mpr ⟨hxy, hy⟩)
  | @tail p y _ hpy ih =>
    have hp : p ≠ n := fun he => hn y (he ▸ hpy)
    exact (ih hp).tail (hn.leads_without_iff.mpr ⟨hpy, hy⟩)

theorem without_addNode (g : Graph α) (m n : α) :
    (g.addNode m).without n = if m = n then g.without n else (g.without n).addNode m := by
  by_cases hmn : m = n
  · subst hmn
    by_cases hm : m ∈ g.nodes <;> simp [addNode, without, hm]
  · by_cases hm : m ∈ g.nodes <;> simp [addNode, without, hm, hmn]

theorem without_addEdge (hm : m ≠ n) (hx : x ≠ n) :
    (g.addEdge m x).without n = (g.without n).addEdge m x := by
  have hnodes : ((g.addNode m).addNode x).without n = ((g.without n).addNode m).addNode x := by
    rw [without_addNode, if_neg hx, without_addNode, if_neg hm]
  rw [addEdge_eq, addEdge_eq, ← hnodes]
  by_cases he : (m, x) ∈ g.edges <;> simp [without, he, hm, hx]

/-- An edge to the node that is left out does not matter, if it starts at a known node. -/
theorem without_addEdge_self (hm : m ∈ g.nodes) : (g.addEdge m n).without n = g.without n := by
  have hnodes : ((g.addNode m).addNode n).without n = g.without n := by
    rw [without_addNode, if_pos rfl, addNode, if_pos hm]
  rw [addEdge_eq, ← hnodes]
  by_cases he : (m, n) ∈ g.edges <;> simp [without, he]

theorem without_addNodes (g : Graph α) (nodes : List α) (n : α) :
    (nodes.foldl addNode g).without n = (nodes.filter (· ≠ n)).foldl addNode (g.without n) := by
  induction nodes generalizing g with
  | nil => rfl
  | cons m nodes ih =>
    rw [List.foldl_cons, ih, without_addNode]
    by_cases hm : m = n <;> simp [hm]

theorem without_addEdges {edges : List (α × α)} (h : ∀ e ∈ edges, e.1 ∈ g.nodes ∧ e.1 ≠ n) :
    (edges.foldl (fun g e => g.addEdge e.1 e.2) g).without n =
      (edges.filter (·.2 ≠ n)).foldl (fun g e => g.addEdge e.1 e.2) (g.without n) := by
  induction edges generalizing g with
  | nil => rfl
  | cons e edges ih =>
    obtain ⟨⟨hnode, hne⟩, hrest⟩ := List.forall_mem_cons.mp h
    have hrest : ∀ e' ∈ edges, e'.1 ∈ (g.addEdge e.1 e.2).nodes ∧ e'.1 ≠ n := fun e' he' =>
      (hrest e' he').imp_left fun hm => mem_nodes_addEdge.mpr (.inl hm)
    rw [List.foldl_cons, ih hrest]
    by_cases hend : e.2 = n
    · rw [hend, without_addEdge_self hnode, List.filter_cons_of_neg (by simpa using hend)]
    · rw [without_addEdge hne hend, List.filter_cons_of_pos (by simpa using hend), List.foldl_cons]

theorem precedes_filter_ne_iff (hx : x ≠ n) (hy : y ≠ n) :
    Precedes (l.filter (· ≠ n)) x y ↔ Precedes l x y := by
  refine ⟨fun h => h.mono List.filter_sublist, fun h => ?_⟩
  have hboth : [x, y].filter (· ≠ n) = [x, y] := by simp [hx, hy]
  rw [Precedes, ← hboth]
  exact List.Sublist.filter (· ≠ n) h

theorem IsLeaf.isLast_without_iff (hn : g.IsLeaf n) (hx : x ≠ n) :
    (g.without n).IsLast (l.filter (· ≠ n)) p x ↔ g.IsLast l p x := by
  have hne : ∀ q, g.Leads q x → q ≠ n := fun q hq he => hn x (he ▸ hq)
  have hleads : ∀ q, (g.without n).Leads q x ↔ g.Leads q x := fun q => by
    rw [hn.leads_without_iff, and_iff_left hx]
  constructor
  · rintro ⟨hp, hlast⟩
    rw [hleads] at hp
    refine ⟨hp, fun {q} hq hqp => ?_⟩
    exact (precedes_filter_ne_iff (hne q hq) (hne p hp)).mp (hlast ((hleads q).mpr hq) hqp)
  · rintro ⟨hp, hlast⟩
    refine ⟨(hleads p).mpr hp, fun {q} hq hqp => ?_⟩
    rw [hleads] at hq
    exact (precedes_filter_ne_iff (hne q hq) (hne p hp)).mpr (hlast hq hqp)

theorem successors_without (hp : p ≠ n) :
    (g.without n).successors p = (g.successors p).filter (· ≠ n) := by
  simp only [successors, without, List.filter_filter, List.filter_map]
  refine congrArg (List.map Prod.snd) (List.filter_congr fun e _ => ?_)
  by_cases he : e.1 = p <;> simp [he, hp]

theorem IsLeaf.readyBefore_without_iff (hn : g.IsLeaf n) (hx : x ≠ n) (hy : y ≠ n) :
    (g.without n).ReadyBefore (l.filter (· ≠ n)) x y ↔ g.ReadyBefore l x y := by
  refine exists_congr fun p => exists_congr fun q => ?_
  rw [hn.isLast_without_iff hx, hn.isLast_without_iff hy]
  refine and_congr_right fun hp => and_congr_right fun hq => ?_
  have hpn : p ≠ n := fun he => hn x (he ▸ hp.leads)
  have hqn : q ≠ n := fun he => hn y (he ▸ hq.leads)
  rw [successors_without hpn, precedes_filter_ne_iff hpn hqn, precedes_filter_ne_iff hx hy]

theorem Forwards.without (h : g.Forwards order) (hn : g.IsLeaf n) :
    (g.without n).Forwards (order.filter (· ≠ n)) := by
  intro l₁ x l₂ he p hp
  obtain ⟨front, back, rfl, rfl, hback⟩ := List.filter_eq_append_iff.mp he
  obtain ⟨gap, rest, rfl, hgap, -, -⟩ := List.filter_eq_cons_iff.mp hback
  obtain ⟨hp, -⟩ := hn.leads_without_iff.mp hp
  have hpn : p ≠ n := fun he => hn x (he ▸ hp)
  rcases List.mem_append.mp (h (front ++ gap) x rest (by simp) p hp) with hm | hm
  · exact List.mem_filter.mpr ⟨hm, decide_eq_true hpn⟩
  · exact absurd (decide_eq_true hpn) (hgap p hm)

theorem IsLeaf.predecessors_without (hn : g.IsLeaf n) (hx : x ≠ n) :
    (g.without n).predecessors x = g.predecessors x := by
  rw [predecessors, predecessors, without, List.filter_filter]
  refine congrArg (List.map Prod.fst) (List.filter_congr fun e he => ?_)
  have hstart : e.1 ≠ n := fun hen => hn e.2 (hen ▸ he)
  by_cases hend : e.2 = x <;> simp [hend, hstart, hx]

theorem IsLeaf.sources_without (hn : g.IsLeaf n) :
    (g.without n).sources = g.sources.filter (· ≠ n) := by
  rw [sources, sources, List.filter_filter]
  refine (List.filter_filter ..).trans (List.filter_congr fun x _ => ?_)
  by_cases hx : x = n
  · simp [hx]
  · simp [hx, hn.predecessors_without hx]

/-- Without a leaf the others keep their turns. -/
theorem InTurn.without (h : g.InTurn order) (hn : g.IsLeaf n) :
    (g.without n).InTurn (order.filter (· ≠ n)) where
  nodup := h.nodup.filter _
  mem_iff := by simp [Graph.without, h.mem_iff]
  forwards := h.forwards.without hn
  sources := hn.sources_without ▸ h.sources.filter _
  precedes_iff := by
    rintro x y hne ⟨p, hp⟩ ⟨q, hq⟩
    obtain ⟨hp, hx⟩ := hn.leads_without_iff.mp hp
    obtain ⟨hq, hy⟩ := hn.leads_without_iff.mp hq
    rw [precedes_filter_ne_iff hx hy, hn.readyBefore_without_iff hx hy]
    exact h.precedes_iff hne ⟨p, hp⟩ ⟨q, hq⟩

/-- What can be sorted without a leaf can be sorted with it, and the others come in the same
order. -/
theorem sort_of_without (hg : g.WellFormed) (hn : g.IsLeaf n)
    (h : (g.without n).sort = .ok order) :
    ∃ whole, g.sort = .ok whole ∧ whole.filter (· ≠ n) = order := by
  cases hsort : g.sort with
  | ok whole =>
    exact ⟨whole, rfl, ((inTurn_of_sort hg hsort).without hn).unique (inTurn_of_sort hg.without h)⟩
  | error cycle =>
    -- A cycle cannot take a leaf, so it would be one of the graph without it.
    obtain ⟨m, hm⟩ := (exists_sort_eq_error_iff hg).mp ⟨cycle, hsort⟩
    obtain ⟨k, hmk, -⟩ := TransGen.head'_iff.mp hm
    have hmn : m ≠ n := fun he => hn k (he ▸ hmk)
    obtain ⟨_, herror⟩ :=
      (exists_sort_eq_error_iff hg.without).mpr ⟨m, hn.transGen_without hm hmn⟩
    exact nomatch h.symm.trans herror

end

end ContractLinker.Graph
