import ContractLinker.Contract.Order
import ContractLinker.Proofs.Graph.Order
import ContractLinker.Proofs.Outcome

/-!
# Ordering contracts

`deploymentOrder_spec`: contracts with ids of their own, whose dependencies are all among them,
are put into an order in which each comes after what it depends on, or a cycle of dependencies is
reported. No contract of an unknown id is ever asked for.
-/

namespace ContractLinker.Linked

/-- A contract has another as a dependency. -/
def DependsOn (c d : Linked) : Prop := ∃ row ∈ c.dependencies.entries, row.2.id = d.id

-- ---------------------------------------------------------------------------
-- The graph of contracts
-- ---------------------------------------------------------------------------

theorem foldl_iff {α β : Type} (P : β → Prop) (Q : α → Prop) {f : β → α → β}
    (h : ∀ b a, P (f b a) ↔ P b ∨ Q a) (l : List α) (b : β) :
    P (l.foldl f b) ↔ P b ∨ ∃ a ∈ l, Q a := by
  induction l generalizing b with
  | nil => simp
  | cons a l ih => simp [ih, h, or_assoc]

/-- The edges of a graph of contracts, in the order in which they are added. -/
def edges (contracts : List Linked) : List (Int × Int) :=
  contracts.flatMap fun c => c.dependencies.entries.map fun row => (row.2.id, c.id)

theorem graph_eq (contracts : List Linked) :
    graph contracts = (edges contracts).foldl (fun g e => g.addEdge e.1 e.2)
      ((contracts.map (·.id)).foldl Graph.addNode .empty) := by
  simp only [graph, edges, List.foldl_flatMap, List.foldl_map]

theorem leads_graph {contracts : List Linked} {a b : Int} :
    (graph contracts).Leads a b ↔
      ∃ c ∈ contracts, ∃ row ∈ c.dependencies.entries, row.2.id = a ∧ c.id = b := by
  have hrow := fun c : Linked => foldl_iff (fun g : Graph Int => g.Leads a b)
    (fun row : String × Contract => row.2.id = a ∧ c.id = b)
    (f := fun g row => g.addEdge row.2.id c.id)
    (fun g row => by simp [Graph.Leads, eq_comm]) c.dependencies.entries
  have hnode := foldl_iff (fun g : Graph Int => g.Leads a b) (fun _ : Linked => False)
    (f := fun g c => g.addNode c.id) (fun g c => by simp [Graph.Leads]) contracts
  unfold graph
  refine (foldl_iff (fun g : Graph Int => g.Leads a b) _ (fun g c => hrow c g) contracts _).trans ?_
  rw [hnode]
  simp [Graph.Leads, Graph.empty]

theorem mem_nodes_graph {contracts : List Linked} {n : Int} :
    n ∈ (graph contracts).nodes ↔
      ∃ c ∈ contracts, c.id = n ∨ ∃ row ∈ c.dependencies.entries, row.2.id = n := by
  have hrow := fun c : Linked => foldl_iff (fun g : Graph Int => n ∈ g.nodes)
    (fun row : String × Contract => n = row.2.id ∨ n = c.id)
    (f := fun g row => g.addEdge row.2.id c.id) (fun g row => by simp) c.dependencies.entries
  have hnode := foldl_iff (fun g : Graph Int => n ∈ g.nodes) (fun c : Linked => n = c.id)
    (f := fun g c => g.addNode c.id) (fun g c => by simp) contracts
  unfold graph
  refine (foldl_iff (fun g : Graph Int => n ∈ g.nodes) _ (fun g c => hrow c g) contracts _).trans ?_
  rw [hnode]
  constructor
  · rintro ((h | ⟨c, hc, rfl⟩) | ⟨c, hc, row, hr, rfl | rfl⟩)
    · exact nomatch h
    · exact ⟨c, hc, .inl rfl⟩
    · exact ⟨c, hc, .inr ⟨row, hr, rfl⟩⟩
    · exact ⟨c, hc, .inl rfl⟩
  · rintro ⟨c, hc, rfl | ⟨row, hr, rfl⟩⟩
    · exact .inl (.inr ⟨c, hc, rfl⟩)
    · exact .inr ⟨c, hc, row, hr, .inl rfl⟩

theorem wellFormed_graph (contracts : List Linked) : (graph contracts).WellFormed := by
  unfold graph
  refine List.foldlRecOn contracts _ ?_ fun g hg c _ => ?_
  · exact List.foldlRecOn contracts _ .empty fun g hg c _ => hg.addNode
  · exact List.foldlRecOn _ _ hg fun g hg row _ => hg.addEdge

-- ---------------------------------------------------------------------------
-- Contracts by their ids
-- ---------------------------------------------------------------------------

/-- Contracts that have the same id are the same; one of them may be given several times. -/
def OwnIds (contracts : List Linked) : Prop :=
  ∀ c ∈ contracts, ∀ d ∈ contracts, c.id = d.id → c = d

section
variable {contracts ordered : List Linked}

theorem OwnIds.of_nodup (h : (contracts.map (·.id)).Nodup) : OwnIds contracts :=
  fun _ hc _ hd hid => List.inj_on_of_nodup_map h hc hd hid

theorem withId_of_mem (hids : OwnIds contracts) {c : Linked} (hc : c ∈ contracts) :
    withId contracts c.id = .ok c := by
  unfold withId
  cases h : contracts.reverse.find? (·.id = c.id) with
  | none => simpa using List.find?_eq_none.mp h c (List.mem_reverse.mpr hc)
  | some d =>
    have hd : d ∈ contracts := List.mem_reverse.mp (List.mem_of_find?_eq_some h)
    have hid : d.id = c.id := by simpa using List.find?_some h
    exact congrArg Except.ok (hids d hd c hc hid)

theorem withId_eq_ok {id : Int} {c : Linked} (h : withId contracts id = .ok c) :
    c ∈ contracts ∧ c.id = id := by
  unfold withId at h
  split at h
  · next d hd =>
    cases h
    exact ⟨List.mem_reverse.mp (List.mem_of_find?_eq_some hd), by simpa using List.find?_some hd⟩
  · cases h

theorem exists_withId {id : Int} (h : id ∈ contracts.map (·.id)) :
    ∃ c, withId contracts id = .ok c := by
  obtain ⟨c, hc, hid⟩ := List.mem_map.mp h
  unfold withId
  cases hf : contracts.reverse.find? (·.id = id) with
  | none => simpa [hid] using List.find?_eq_none.mp hf c (List.mem_reverse.mpr hc)
  | some d => exact ⟨d, rfl⟩

theorem withId_of_not_mem {id : Int} (h : id ∉ contracts.map (·.id)) :
    withId contracts id = .error (.unknownContract id) := by
  cases hf : withId contracts id with
  | ok c =>
    obtain ⟨hc, rfl⟩ := withId_eq_ok hf
    exact absurd (List.mem_map_of_mem hc) h
  | error f =>
    unfold withId at hf
    split at hf
    · cases hf
    · exact hf.symm

theorem mapM_withId_eq_ok_iff (hids : OwnIds contracts) {ids : List Int} :
    ids.mapM (withId contracts) = .ok ordered ↔ ids = ordered.map (·.id) ∧ ordered ⊆ contracts := by
  rw [mapM_eq_ok_iff]
  constructor
  · intro h
    induction h with
    | nil => simp
    | cons hc _ ih =>
      obtain ⟨hmem, rfl⟩ := withId_eq_ok hc
      exact ⟨by rw [ih.1, List.map_cons], List.cons_subset.mpr ⟨hmem, ih.2⟩⟩
  · rintro ⟨rfl, hsub⟩
    exact List.forall₂_map_left_iff.mpr (List.forall₂_same.mpr fun c hc =>
      withId_of_mem hids (hsub hc))

/-- A row of known ids is the row of ids of contracts. -/
theorem exists_mapM_withId (hids : OwnIds contracts) (ids : List Int)
    (h : ids ⊆ contracts.map (·.id)) :
    ∃ members, ids.mapM (withId contracts) = .ok members ∧ members.map (·.id) = ids ∧
      members ⊆ contracts := by
  induction ids with
  | nil => exact ⟨[], rfl, rfl, by simp⟩
  | cons i ids ih =>
    obtain ⟨c, hc, rfl⟩ := List.mem_map.mp (h List.mem_cons_self)
    obtain ⟨members, hm, rfl, hsub⟩ := ih fun j hj => h (List.mem_cons_of_mem _ hj)
    refine ⟨c :: members, ?_, rfl, List.cons_subset.mpr ⟨hc, hsub⟩⟩
    rw [List.mapM_cons, withId_of_mem hids hc, hm]
    rfl

end

-- ---------------------------------------------------------------------------
-- The order
-- ---------------------------------------------------------------------------

/-- Every contract stands behind what it depends on. -/
def Ordered (ordered : List Linked) : Prop :=
  ∀ l₁ c l₂, ordered = l₁ ++ c :: l₂ → ∀ d ∈ ordered, c.DependsOn d → d ∈ l₁

/-- The contracts depend on each other and on nothing else. -/
def Closed (contracts : List Linked) : Prop :=
  ∀ c ∈ contracts, ∀ row ∈ c.dependencies.entries, row.2.id ∈ contracts.map (·.id)

/-- A closed walk along dependencies that meets no contract twice but the first. -/
def IsCycle (cycle : List Linked) : Prop :=
  ∃ c path, cycle = c :: path ++ [c] ∧ (c :: path).Nodup ∧ cycle.IsChain DependsOn

section
variable {contracts ordered : List Linked}

theorem leads_graph_id (hids : OwnIds contracts) {c : Linked} (hc : c ∈ contracts)
    (d : Linked) : (graph contracts).Leads d.id c.id ↔ c.DependsOn d := by
  rw [leads_graph]
  constructor
  · rintro ⟨c', hc', row, hr, hd, hid⟩
    cases hids c' hc' c hc hid
    exact ⟨row, hr, hd⟩
  · rintro ⟨row, hr, hd⟩
    exact ⟨c, hc, row, hr, hd, rfl⟩

theorem isCycle_of_ids (hids : OwnIds contracts) {members : List Linked}
    (hsub : members ⊆ contracts) (h : (graph contracts).IsCycle (members.map (·.id))) :
    IsCycle members := by
  obtain ⟨n, path, he, hnd, hchain⟩ := h
  obtain ⟨front, back, rfl, hfront, hback⟩ := List.map_eq_append_iff.mp he
  obtain ⟨c, rest, rfl, rfl, rfl⟩ := List.map_eq_cons_iff.mp hfront
  obtain ⟨d, rfl, hdc⟩ := List.map_eq_singleton_iff.mp hback
  cases hids d (hsub (by simp)) c (hsub (by simp)) hdc
  refine ⟨c, rest, rfl, .of_map (·.id) (by rwa [hfront]),
    ((List.isChain_map _).mp hchain).imp_of_mem_imp ?_⟩
  exact fun a b ha _ hab => (leads_graph_id hids (hsub ha) b).mp hab

theorem ordered_of_ids (hids : OwnIds contracts) {members : List Linked}
    (hsub : members ⊆ contracts) (h : (graph contracts).Forwards (members.map (·.id))) :
    Ordered members := by
  rintro l₁ c l₂ rfl d hd hcd
  have hc := hsub (List.mem_append_right l₁ List.mem_cons_self)
  have hid : d.id ∈ l₁.map (·.id) :=
    h (l₁.map (·.id)) c.id (l₂.map (·.id)) (by simp) d.id ((leads_graph_id hids hc d).mpr hcd)
  obtain ⟨e, he, hed⟩ := List.mem_map.mp hid
  exact hids e (hsub (List.mem_append_left _ he)) d (hsub hd) hed ▸ he

theorem deploymentOrder_eq_ok_iff (hids : OwnIds contracts) :
    deploymentOrder contracts = .ok ordered ↔
      (graph contracts).sort = .ok (ordered.map (·.id)) ∧ ordered ⊆ contracts := by
  unfold deploymentOrder
  split
  · next ids hsort => rw [mapM_withId_eq_ok_iff hids, hsort, Except.ok.injEq]
  · next cycle hsort => simp [hsort, bind_eq_ok]

theorem mem_nodes_graph_of_closed {n : Int} (hclosed : Closed contracts) :
    n ∈ (graph contracts).nodes ↔ n ∈ contracts.map (·.id) := by
  rw [mem_nodes_graph, List.mem_map]
  constructor
  · rintro ⟨c, hc, h | ⟨row, hr, rfl⟩⟩
    · exact ⟨c, hc, h⟩
    · exact List.mem_map.mp (hclosed c hc row hr)
  · rintro ⟨c, hc, h⟩
    exact ⟨c, hc, .inl h⟩

/-- Sorted contracts are returned if what they depend on has been given. -/
theorem deploymentOrder_of_sort_eq_ok (hids : OwnIds contracts) (hclosed : Closed contracts)
    {order : List Int} (hsort : (graph contracts).sort = .ok order) :
    ∃ ordered, deploymentOrder contracts = .ok ordered ∧ ordered.Nodup ∧
      (∀ c, c ∈ ordered ↔ c ∈ contracts) ∧ Ordered ordered := by
  have hg := wellFormed_graph contracts
  have hnodes := fun n => mem_nodes_graph_of_closed (n := n) hclosed
  obtain ⟨hperm, hforwards⟩ := Graph.perm_of_sort hg hsort
  obtain ⟨ordered, hm, rfl, hsub⟩ := exists_mapM_withId hids order
    fun i hi => (hnodes i).mp (hperm.subset hi)
  refine ⟨ordered, by simp [deploymentOrder, hsort, hm],
    .of_map _ (hperm.nodup_iff.mpr hg.nodes_nodup), fun c => ⟨fun h => hsub h, fun hc => ?_⟩,
    ordered_of_ids hids hsub hforwards⟩
  have hid : c.id ∈ ordered.map (·.id) :=
    hperm.symm.subset ((hnodes c.id).mpr (List.mem_map_of_mem hc))
  obtain ⟨d, hd, hdc⟩ := List.mem_map.mp hid
  exact hids d (hsub hd) c hc hdc ▸ hd

/-- Whatever the contracts depend on, a cycle only meets contracts that have been given. -/
theorem deploymentOrder_of_sort_eq_error (hids : OwnIds contracts) {cycle : Graph.Cycle Int}
    (hsort : (graph contracts).sort = .error cycle) :
    ∃ members, deploymentOrder contracts = .error (.cyclic (members.map (·.name))) ∧
      members ⊆ contracts ∧ IsCycle members := by
  have hcycle := (Graph.endsWalk_of_sort_eq_error (wellFormed_graph contracts) hsort).isCycle
  have hknown : cycle.nodes ⊆ contracts.map (·.id) := by
    intro i hi
    obtain ⟨p, hp⟩ := hcycle.exists_leads hi
    obtain ⟨c, hc, -, -, -, rfl⟩ := leads_graph.mp hp
    exact List.mem_map_of_mem hc
  obtain ⟨members, hm, hmap, hsub⟩ := exists_mapM_withId hids cycle.nodes hknown
  refine ⟨members, ?_, hsub, isCycle_of_ids hids hsub (hmap ▸ hcycle)⟩
  simp [deploymentOrder, hsort, hm, bind, Except.bind]

theorem deploymentOrder_spec (hids : (contracts.map (·.id)).Nodup) (hclosed : Closed contracts) :
    (∃ ordered, deploymentOrder contracts = .ok ordered ∧ ordered.Perm contracts ∧
      Ordered ordered) ∨
    (∃ cycle, deploymentOrder contracts = .error (.cyclic (cycle.map (·.name))) ∧
      cycle ⊆ contracts ∧ IsCycle cycle) := by
  cases hsort : (graph contracts).sort with
  | ok order =>
    obtain ⟨ordered, hok, hnodup, hmem, hordered⟩ :=
      deploymentOrder_of_sort_eq_ok (.of_nodup hids) hclosed hsort
    exact .inl ⟨ordered, hok, (List.perm_ext_iff_of_nodup hnodup (.of_map _ hids)).mpr hmem,
      hordered⟩
  | error cycle => exact .inr (deploymentOrder_of_sort_eq_error (.of_nodup hids) hsort)

end

end ContractLinker.Linked
