import ContractLinker.Proofs.Graph.Renaming
import ContractLinker.Proofs.Preparation

/-!
# Renumbered contracts

Numbers only tell contracts apart. `Matches.of_renumber`: contracts that are linked in the same way
but for their numbers have the same code and lead to the same places. `Contract.map_linked`:
contracts are linked in the same way if their locations find the same contracts, however those are
numbered. `deploymentOrder_renumber` and `deploymentOrder_of_filter` carry an order over to other
numbers and to one more contract on which none depends.
-/

namespace ContractLinker

variable {f g : Int → Int}

-- ---------------------------------------------------------------------------
-- Numbers
-- ---------------------------------------------------------------------------

def Contract.renumber (f : Int → Int) (c : Contract) : Contract := { c with id := f c.id }

def Link.renumber (f : Int → Int) : Link → Link
  | .contract c => .contract (c.renumber f)
  | .alias a => .alias a

namespace Linked

def renumber (f : Int → Int) (c : Linked) : Linked :=
  { c.toContract.renumber f with
    dependencies := ⟨c.dependencies.entries.map fun row => (row.1, row.2.renumber f)⟩
    aliases := c.aliases }

@[simp] theorem renumber_id (c : Linked) : c.renumber id = c := by
  simp [renumber, Contract.renumber]

theorem renumber_addLink (c : Linked) (location : String) (target : Link) :
    (c.addLink location target).renumber f =
      (c.renumber f).addLink location (target.renumber f) := by
  cases target with
  | contract d =>
    simp only [addLink, addDependency, Link.renumber, renumber, Table.insert, Table.map_put]
  | _ => rfl

theorem renumber_addLinks (c : Linked) (links : List (String × Link)) :
    (c.addLinks links).renumber f =
      (c.renumber f).addLinks (links.map fun link => (link.1, link.2.renumber f)) := by
  induction links generalizing c with
  | nil => rfl
  | cons link links ih => exact (ih _).trans (by rw [renumber_addLink]; rfl)

/-- Contracts that were linked in the same way, whatever numbers they have. -/
structure Matches (c d : Linked) : Prop where
  name : c.name = d.name
  path : c.path = d.path
  target : c.target = d.target
  code : c.code = d.code
  linkedCode : ∀ every, c.linkedCode every = d.linkedCode every
  dependencies : c.dependencies.entries.map (fun row => (row.1, row.2.path)) =
    d.dependencies.entries.map fun row => (row.1, row.2.path)
  aliases : c.aliases = d.aliases

theorem targets_renumber (c : Linked) : (c.renumber f).targets = c.targets := by
  simp only [targets, renumber, List.map_map]
  rfl

theorem matches_renumber (c : Linked) : (c.renumber f).Matches c where
  name := rfl
  path := rfl
  target := rfl
  code := rfl
  linkedCode every := by rw [linkedCode, targets_renumber]; rfl
  dependencies := by
    simp only [renumber, List.map_map]
    rfl
  aliases := rfl

theorem Matches.symm {c d : Linked} (h : c.Matches d) : d.Matches c :=
  ⟨h.name.symm, h.path.symm, h.target.symm, h.code.symm, fun every => (h.linkedCode every).symm,
    h.dependencies.symm, h.aliases.symm⟩

theorem Matches.trans {b c d : Linked} (h : b.Matches c) (h' : c.Matches d) : b.Matches d :=
  ⟨h.name.trans h'.name, h.path.trans h'.path, h.target.trans h'.target, h.code.trans h'.code,
    fun every => (h.linkedCode every).trans (h'.linkedCode every),
    h.dependencies.trans h'.dependencies, h.aliases.trans h'.aliases⟩

theorem Matches.of_renumber {c d : Linked} (h : c.renumber f = d.renumber g) : c.Matches d :=
  (matches_renumber c).symm.trans (h ▸ matches_renumber d)

end Linked

-- ---------------------------------------------------------------------------
-- Lookups
-- ---------------------------------------------------------------------------

namespace WorkingSet

variable {s t : WorkingSet} {path : String}

theorem map_contractAt?_eq_some_iff (hs : (s.registered.map (·.path)).Nodup) {x : Contract} :
    (s.contractAt? path).map (Contract.renumber f) = some x ↔
      x ∈ s.registered.map (Contract.renumber f) ∧ x.path = path := by
  rw [Option.map_eq_some_iff, List.mem_map]
  constructor
  · rintro ⟨c, hc, rfl⟩
    obtain ⟨hmem, hpath⟩ := contractAt?_eq_some hc
    exact ⟨⟨c, hmem, rfl⟩, hpath⟩
  · rintro ⟨⟨c, hc, rfl⟩, rfl⟩
    exact ⟨c, contractAt?_of_mem hs hc, rfl⟩

/-- Equal contracts at a path are found there, if no set has two of them. -/
theorem map_contractAt?_congr (hs : (s.registered.map (·.path)).Nodup)
    (ht : (t.registered.map (·.path)).Nodup)
    (h : ∀ x : Contract, x.path = path → (x ∈ s.registered.map (Contract.renumber f) ↔
      x ∈ t.registered.map (Contract.renumber g))) :
    (s.contractAt? path).map (Contract.renumber f) =
      (t.contractAt? path).map (Contract.renumber g) := by
  refine Option.ext fun x => ?_
  rw [map_contractAt?_eq_some_iff hs, map_contractAt?_eq_some_iff ht]
  exact and_congr_left (h x)

end WorkingSet

variable {options : Options} {aliases : AliasTable} {s t : WorkingSet} {c d : Contract}

/-- A lookup ends alike if the same contract is found, or none. -/
theorem Contract.map_lookup (h : c.renumber f = d.renumber g) {location : String}
    (hat : (s.contractAt? (Path.locate c.path location)).map (Contract.renumber f) =
      (t.contractAt? (Path.locate c.path location)).map (Contract.renumber g)) :
    (c.lookup options aliases s location).map (Link.renumber f) =
      (d.lookup options aliases t location).map (Link.renumber g) := by
  simp only [renumber, Contract.mk.injEq] at h
  obtain ⟨-, hname, hpath, -, -, hprogram⟩ := h
  unfold lookup
  rw [← hpath, ← hname, ← hprogram]
  cases hs : s.contractAt? (Path.locate c.path location) with
  | some x =>
    cases ht : t.contractAt? (Path.locate c.path location) with
    | some y =>
      rw [hs, ht] at hat
      exact congrArg (Except.ok ∘ Link.contract) (Option.some.inj hat)
    | none => rw [hs, ht] at hat; cases hat
  | none =>
    cases ht : t.contractAt? (Path.locate c.path location) with
    | some y => rw [hs, ht] at hat; cases hat
    | none =>
      dsimp only
      split
      · next text _ => cases Address.parse text <;> rfl
      · rfl

theorem Contract.map_linked_eq (f : Int → Int) (c : Contract) :
    (c.linked options aliases s).map (Linked.renumber f) =
      (c.program.locations.mapM fun l =>
        ((c.lookup options aliases s l).map (Link.renumber f)).map (l, ·)).map
          (c.renumber f).unlinked.addLinks := by
  have hpair : ∀ l, ((c.lookup options aliases s l).map (l, ·)).map
      (fun link => (link.1, link.2.renumber f)) =
        ((c.lookup options aliases s l).map (Link.renumber f)).map (l, ·) := fun l => by
    cases c.lookup options aliases s l <;> rfl
  have hresult : c.linked options aliases s =
      (c.program.locations.mapM fun l => (c.lookup options aliases s l).map (l, ·)).map
        c.unlinked.addLinks := Batch.result_linkLocations c.unlinked _
  rw [hresult, ← mapM_congr fun l _ => hpair l, ← map_mapM]
  cases c.program.locations.mapM fun l => (c.lookup options aliases s l).map (l, ·) with
  | error e => rfl
  | ok links => exact congrArg Except.ok (Linked.renumber_addLinks c.unlinked links)

/-- Contracts are linked in the same way if the same contracts are found for their locations. -/
theorem Contract.map_linked (h : c.renumber f = d.renumber g)
    (hat : ∀ location ∈ c.program.locations,
      (s.contractAt? (Path.locate c.path location)).map (Contract.renumber f) =
        (t.contractAt? (Path.locate c.path location)).map (Contract.renumber g)) :
    (c.linked options aliases s).map (Linked.renumber f) =
      (d.linked options aliases t).map (Linked.renumber g) := by
  have hprogram : c.program = d.program := (congrArg Contract.program h :)
  rw [map_linked_eq, map_linked_eq, h, ← hprogram]
  refine congrArg _ (mapM_congr fun l hl => ?_)
  rw [map_lookup h (hat l hl)]

-- ---------------------------------------------------------------------------
-- Orders
-- ---------------------------------------------------------------------------

namespace Linked

variable {contracts ordered : List Linked}

theorem graph_renumber (hf : f.Injective) (contracts : List Linked) :
    graph (contracts.map (renumber f)) = (graph contracts).map f := by
  have hedges : edges (contracts.map (renumber f)) = (edges contracts).map (Prod.map f f) := by
    simp [edges, List.flatMap_map, List.map_flatMap, renumber, Function.comp_def, Contract.renumber]
  have hids : (contracts.map (renumber f)).map (·.id) = (contracts.map (·.id)).map f := by
    simp [renumber, Contract.renumber]
  rw [graph_eq, graph_eq, Graph.map_addEdges hf, Graph.map_addNodes hf, hedges, hids]
  rfl

theorem filter_edges (n : Int) (contracts : List Linked) :
    (edges contracts).filter (·.2 ≠ n) = edges (contracts.filter (·.id ≠ n)) := by
  induction contracts with
  | nil => rfl
  | cons c contracts ih =>
    rw [edges, List.flatMap_cons, List.filter_append, ← edges, ih, List.filter_map]
    by_cases hc : c.id = n <;> simp [edges, hc, Function.comp_def]

/-- None of the contracts depends on the one with a number. -/
def Ends (contracts : List Linked) (n : Int) : Prop :=
  ∀ c ∈ contracts, ∀ row ∈ c.dependencies.entries, row.2.id ≠ n

theorem Ends.isLeaf_graph {n : Int} (h : Ends contracts n) : (graph contracts).IsLeaf n := by
  intro b hb
  obtain ⟨c, hc, row, hr, hid, -⟩ := leads_graph.mp hb
  exact h c hc row hr hid

/-- A contract on which none depends can be left out before or after the graph is built. -/
theorem graph_without {n : Int} (hclosed : Closed contracts) (hn : Ends contracts n) :
    (graph contracts).without n = graph (contracts.filter (·.id ≠ n)) := by
  have hnodes : ∀ i, i ∈ ((contracts.map (·.id)).foldl Graph.addNode .empty).nodes ↔
      i ∈ contracts.map (·.id) := fun i => by
    rw [foldl_iff (fun g : Graph Int => i ∈ g.nodes) (fun j => i = j) fun g j => by simp]
    simp [Graph.empty]
  have hstart : ∀ e ∈ edges contracts,
      e.1 ∈ ((contracts.map (·.id)).foldl Graph.addNode .empty).nodes ∧ e.1 ≠ n := by
    intro e he
    obtain ⟨c, hc, he⟩ := List.mem_flatMap.mp he
    obtain ⟨row, hr, rfl⟩ := List.mem_map.mp he
    exact ⟨(hnodes _).mpr (hclosed c hc row hr), hn c hc row hr⟩
  rw [graph_eq, graph_eq, Graph.without_addEdges hstart, Graph.without_addNodes, filter_edges,
    List.filter_map]
  rfl

theorem deploymentOrder_renumber (hf : f.Injective) (hids : (contracts.map (·.id)).Nodup)
    (h : deploymentOrder contracts = .ok ordered) :
    deploymentOrder (contracts.map (renumber f)) = .ok (ordered.map (renumber f)) := by
  have hmap : ∀ l : List Linked, (l.map (renumber f)).map (·.id) = (l.map (·.id)).map f := by
    simp [renumber, Contract.renumber]
  obtain ⟨hsort, hsub⟩ := (deploymentOrder_eq_ok_iff (.of_nodup hids)).mp h
  refine (deploymentOrder_eq_ok_iff (.of_nodup (hmap contracts ▸ hids.map hf))).mpr ⟨?_, ?_⟩
  · rw [graph_renumber hf, hmap, Graph.sort_map hf hsort]
  · exact List.map_subset _ hsub

/-- With one more contract, on which none depends, the others keep their order. -/
theorem deploymentOrder_of_filter {n : Int} (hids : (contracts.map (·.id)).Nodup)
    (hclosed : Closed contracts) (hn : Ends contracts n)
    (h : deploymentOrder (contracts.filter (·.id ≠ n)) = .ok ordered) :
    ∃ whole, deploymentOrder contracts = .ok whole ∧ whole.filter (·.id ≠ n) = ordered := by
  have hg := wellFormed_graph contracts
  have hown : OwnIds contracts := .of_nodup hids
  have hleft : ((contracts.filter (·.id ≠ n)).map (·.id)).Nodup :=
    List.Sublist.nodup (List.filter_sublist.map _) hids
  obtain ⟨hsort, hsub⟩ := (deploymentOrder_eq_ok_iff (.of_nodup hleft)).mp h
  rw [← graph_without hclosed hn] at hsort
  obtain ⟨ids, hwhole, hfilter⟩ := Graph.sort_of_without hg hn.isLeaf_graph hsort
  have hknown : ids ⊆ contracts.map (·.id) := fun i hi =>
    (mem_nodes_graph_of_closed hclosed).mp ((Graph.inTurn_of_sort hg hwhole).mem_iff.mp hi)
  obtain ⟨whole, -, rfl, hwholeSub⟩ := exists_mapM_withId hown ids hknown
  refine ⟨whole, (deploymentOrder_eq_ok_iff hown).mpr ⟨hwhole, hwholeSub⟩, ?_⟩
  -- Both rows have the same numbers, and a number stands for one contract.
  have hleftIds : (whole.filter (·.id ≠ n)).map (·.id) = ordered.map (·.id) := by
    rw [← hfilter, List.filter_map]
    rfl
  have hfilterSub : ∀ l : List Linked, l.filter (·.id ≠ n) ⊆ l := fun l => List.filter_subset_self l
  have hmembers := (mapM_withId_eq_ok_iff hown).mpr
    ⟨rfl, List.Subset.trans (hfilterSub whole) hwholeSub⟩
  have hordered := (mapM_withId_eq_ok_iff hown).mpr
    ⟨rfl, List.Subset.trans hsub (hfilterSub contracts)⟩
  rw [hleftIds] at hmembers
  exact Except.ok.inj (hmembers.symm.trans hordered)

end Linked

end ContractLinker
