import ContractLinker.Proofs.Session

/-!
# Reports of cycles

`reported_cycles`: a cycle that a sort reports is one of the graph, found by a walk that never
stops short, and a cycle that a preparation reports is one of resolved imports. What links the two
is `Settled.deploymentOrder_cases`; the walk is followed in the proofs about sorting.
-/

namespace ContractLinker

open Relation (TransGen)

-- ---------------------------------------------------------------------------
-- Cycles of resolved imports
-- ---------------------------------------------------------------------------

namespace WorkingSet

/-- An import of one contract has been resolved to another. -/
def LinksTo (s : WorkingSet) (c d : Linked) : Prop :=
  c ∈ s.contracts ∧ d ∈ s.contracts ∧
    ∃ location ∈ c.program.locations, c.dependencies.get? location = some d.toContract

/-- A closed walk along resolved imports that meets no contract twice but the first. -/
def IsCycle (s : WorkingSet) (cycle : List Linked) : Prop :=
  ∃ c path, cycle = c :: path ++ [c] ∧ (c :: path).Nodup ∧ cycle.IsChain s.LinksTo

variable {s : WorkingSet} {cycle : List Linked}

/-- A cycle that takes a self-import consists of that alone. -/
theorem IsCycle.length_eq_two_iff (h : s.IsCycle cycle) :
    cycle.length = 2 ↔ ∃ d, [d, d] <:+: cycle := by
  obtain ⟨c, path, rfl, hnodup, -⟩ := h
  cases path with
  | nil => exact ⟨fun _ => ⟨c, List.infix_rfl⟩, fun _ => rfl⟩
  | cons a rest =>
    have hc : c ∉ a :: rest := (List.nodup_cons.mp hnodup).1
    have hne : (c :: a :: rest ++ [c]).IsChain (· ≠ ·) := by
      refine (List.Pairwise.isChain hnodup).append (.singleton c) fun x hx y hy hxy => ?_
      have hlast : (a :: rest).getLast? = some x := by simpa using hx
      obtain rfl : c = y := by simpa using hy
      exact hc (hxy ▸ List.mem_of_getLast? hlast)
    constructor
    · intro hlen
      simp at hlen
    · rintro ⟨d, hd⟩
      simpa using hne.infix hd

/-- Where contracts import nothing in a circle but themselves, a cycle is a self-import. -/
theorem IsCycle.eq_pair (h : s.IsCycle cycle)
    (hself : ∀ c d, TransGen s.LinksTo c d → TransGen s.LinksTo d c → c = d) :
    ∃ d, cycle = [d, d] ∧ s.LinksTo d d := by
  obtain ⟨c, path, rfl, hnodup, hchain⟩ := h
  cases path with
  | nil => exact ⟨c, rfl, by simpa using hchain⟩
  | cons d path =>
    rw [List.cons_append, List.cons_append, List.isChain_cons_cons] at hchain
    have hcd : c = d := hself c d (.single hchain.1) (Graph.transGen_of_isChain hchain.2)
    subst hcd
    simp at hnodup

end WorkingSet

-- ---------------------------------------------------------------------------
-- Orders of a settled batch
-- ---------------------------------------------------------------------------

namespace Batch

variable {b : Batch} {options : Options} {aliases : AliasTable} {cs : List Contract}
  {c d : Linked}

theorem Settled.dependsOn_iff (h : b.Settled cs) (hc : c ∈ b.set.contracts)
    (hd : d ∈ b.set.contracts) : c.DependsOn d ↔ b.set.LinksTo c d := by
  obtain ⟨hlinked, hcs⟩ := linkedFrom_of_mem h.contracts hc
  obtain ⟨-, hds⟩ := linkedFrom_of_mem h.contracts hd
  constructor
  · intro hdep
    obtain ⟨-, hreg, location, hloc, hp⟩ := (hlinked.dependsOn_iff h.holds hcs hds).mp hdep
    have hpaths : (b.set.registered.map (·.path)).Nodup := h.holds.registered ▸ h.holds.paths
    refine ⟨hc, hd, location, hloc, hlinked.get?_eq_some_iff.mpr ⟨hloc, ?_⟩⟩
    rw [hp]
    exact WorkingSet.contractAt?_of_mem hpaths hreg
  · rintro ⟨-, -, location, -, hget⟩
    exact ⟨_, (Table.mem_entries_iff hlinked.nodup_keys location d.toContract).mpr hget, rfl⟩

/-- A settled batch is ordered if it has no cycle of imports; else one of them is reported. -/
theorem Settled.deploymentOrder_cases (h : b.Settled cs) :
    (∃ ordered, Linked.deploymentOrder b.set.contracts = .ok ordered ∧
      ¬ ∃ d, TransGen b.set.LinksTo d d) ∨
    (∃ cycle, Linked.deploymentOrder b.set.contracts = .error (.cyclic (cycle.map (·.name))) ∧
      b.set.IsCycle cycle) := by
  rcases deploymentOrder_of_forall₂ h.holds h.contracts with
    ⟨ordered, hok, hperm, hord⟩ | ⟨_, herr, hsub, c, path, rfl, hnodup, hchain⟩
  · have hbehind : ∀ l₁ c l₂, ordered = l₁ ++ c :: l₂ → ∀ d, b.set.LinksTo c d → d ∈ l₁ :=
      fun l₁ c l₂ he d hcd =>
        hord l₁ c l₂ he d (hperm.symm.subset hcd.2.1) ((h.dependsOn_iff hcd.1 hcd.2.1).mpr hcd)
    refine .inl ⟨ordered, hok, fun ⟨d, hcycle⟩ => ?_⟩
    have hmem : d ∈ ordered := by
      obtain ⟨_, hd, -⟩ := TransGen.head'_iff.mp hcycle
      exact hperm.symm.subset hd.1
    exact Graph.not_transGen_of_mem hbehind hmem hcycle
  · exact .inr ⟨_, herr, c, path, rfl, hnodup, hchain.imp_of_mem_imp fun l m hl hm =>
      (h.dependsOn_iff (hsub hl) (hsub hm)).mp⟩

/-- A preparation that fails with a lookup leaves no import resolved. -/
theorem Sound.not_linksTo (h : b.Sound) {f : Failure}
    (hf : (b.prepare options aliases).2.result = .error f) (hlookup : f.IsLookup) :
    ¬ (b.prepare options aliases).1.set.LinksTo c d := by
  obtain ⟨hlink, hlinked⟩ := linkAll_of_failed_lookup hf hlookup
  rw [prepare_of_failed_link hlink]
  rintro ⟨hc, -, location, -, hget⟩
  obtain ⟨cs, h | h⟩ := h
  · have hc' : c ∈ cs.map Contract.unlinked := h.contracts ▸ hc
    obtain ⟨x, -, rfl⟩ := List.mem_map.mp hc'
    exact nomatch hget
  · exact nomatch h.linked.symm.trans hlinked

end Batch

-- ---------------------------------------------------------------------------
-- The reports
-- ---------------------------------------------------------------------------

namespace Session

/-- A failed sort has walked from blocked node to blocked predecessor, from the first blocked node
on, into the cycle it reports. A preparation that fails with a cycle names the contracts of a
closed walk along resolved imports, of two names if it takes a self-import; and where imports run
in no other circles, some self-import is what it names. -/
theorem reported_cycles :
    (∀ {α : Type} [DecidableEq α] (g : Graph α) (cycle : Graph.Cycle α), g.Built →
      g.sort = .error cycle →
        g.IsCycle cycle.nodes ∧ g.EndsWalk g.blocked cycle.nodes ∧
          ∀ n ∈ g.blocked, ∃ p, g.StepsBack g.blocked n p) ∧
    ∀ (options : Options) (read : String → Except Failure String) (s : Session)
      (request : Request), Reachable options s → request.IsPreparation →
        let set := (s.step options read request).1.batch.set
        let result := (s.step options read request).2.result
        (∀ names, result = .error (.cyclic names) →
          ∃ cycle, names = cycle.map (·.name) ∧ set.IsCycle cycle ∧
            (names.length = 2 ↔ ∃ d, [d, d] <:+: cycle)) ∧
        ((∃ d, set.LinksTo d d) →
          (∀ c d, TransGen set.LinksTo c d → TransGen set.LinksTo d c → c = d) →
            ∃ d, set.LinksTo d d ∧ result = .error (.cyclic [d.name, d.name])) := by
  refine ⟨fun g cycle hg h => ?_, fun options read s request hs hr => ?_⟩
  · have hwalk := Graph.endsWalk_of_sort_eq_error hg.wellFormed h
    exact ⟨hwalk.isCycle, hwalk, fun n hn => Graph.exists_stepsBack_of_mem_blocked hg.wellFormed hn⟩
  have hset : (s.step options read request).1.batch.set =
      (s.batch.prepare options s.aliases).1.set := by rw [fst_step_of_isPreparation hr]
  simp only [step_eq_error_iff hr, hset]
  constructor
  · intro names hnames
    have hpast : ∀ f, (s.batch.prepare options s.aliases).2.result = .error f → ¬ f.IsLookup := by
      intro f hf
      cases hnames.symm.trans hf
      exact id
    obtain ⟨cs, hsettled, houtcome⟩ := hs.sound.prepare_settled hpast
    rw [houtcome] at hnames
    rcases hsettled.deploymentOrder_cases with ⟨ordered, hok, -⟩ | ⟨cycle, herr, hcycle⟩
    · exact nomatch hok.symm.trans hnames
    · cases herr.symm.trans hnames
      exact ⟨cycle, rfl, hcycle, by rw [List.length_map]; exact hcycle.length_eq_two_iff⟩
  · rintro ⟨d, hd⟩ hself
    obtain ⟨cs, hsettled, houtcome⟩ := hs.sound.prepare_settled fun f hf hlookup =>
      hs.sound.not_linksTo hf hlookup hd
    rcases hsettled.deploymentOrder_cases with ⟨ordered, -, hno⟩ | ⟨cycle, herr, hcycle⟩
    · exact absurd ⟨d, .single hd⟩ hno
    · obtain ⟨e, rfl, he⟩ := hcycle.eq_pair hself
      exact ⟨e, he, houtcome.trans herr⟩

/-- The walk leaves the node it starts from behind if that only waits for others; and a contract
that imports itself is all there is to its cycle. -/
theorem reported_cycles_self_import :
    ∃ (g : Graph Nat) (cycle : Graph.Cycle Nat) (s : Session)
      (read : String → Except Failure String), g.Built ∧ g.sort = .error cycle ∧
      g.IsCycle cycle.nodes ∧ g.EndsWalk g.blocked cycle.nodes ∧
      g.blocked.head? = some 5 ∧ 5 ∉ cycle.nodes ∧ (∃ p, g.StepsBack g.blocked 5 p) ∧
      Reachable {} s ∧
      (∃ cycle, ["A", "A"] = cycle.map (·.name) ∧
        (s.step {} read .prepare).1.batch.set.IsCycle cycle ∧ ∃ d, [d, d] <:+: cycle) ∧
      ∃ d, (s.step {} read .prepare).1.batch.set.LinksTo d d ∧
        (s.step {} read .prepare).2.result = .error (.cyclic [d.name, d.name]) := by
  let g : Graph Nat := (((Graph.empty.addNode 5).addEdge 1 2).addEdge 2 1).addEdge 2 5
  let read : String → Except Failure String := fun path => .error (.unreadable path "missing")
  let s := (({} : Session).step {} read (.addCode "A" "A.cdc" "import \"./A.cdc\"" "01")).1
  have hg : g.Built := Graph.Built.empty.addNode.addEdge.addEdge.addEdge
  have hs : Reachable {} s := ⟨_, .single ⟨read, _, rfl⟩⟩
  have hsort : g.sort = .error ⟨[2, 1, 2]⟩ := by decide +kernel
  have hnames : (s.step {} read .prepare).2.result = .error (.cyclic ["A", "A"]) := by
    decide +kernel
  have hself : ∃ d ∈ (s.step {} read .prepare).1.batch.set.contracts,
      ∃ location ∈ d.program.locations,
        d.dependencies.get? location = some d.toContract := by decide +kernel
  have hone : ∀ c ∈ (s.step {} read .prepare).1.batch.set.contracts,
      ∀ d ∈ (s.step {} read .prepare).1.batch.set.contracts, c = d := by decide +kernel
  obtain ⟨hgraph, hsession⟩ := reported_cycles
  obtain ⟨hcycle, hwalk, hback⟩ := hgraph g _ hg hsort
  obtain ⟨hreport, hlone⟩ := hsession {} read s .prepare hs .prepare
  obtain ⟨cycle, he, hset, hlength⟩ := hreport _ hnames
  obtain ⟨d, hd, hlink⟩ := hself
  have hpair := hlone ⟨d, hd, hd, hlink⟩ fun c d hcd hdc => by
    obtain ⟨_, hc, -⟩ := TransGen.head'_iff.mp hcd
    obtain ⟨_, hd, -⟩ := TransGen.head'_iff.mp hdc
    exact hone c hc.1 d hd.1
  exact ⟨g, _, s, read, hg, hsort, hcycle, hwalk, by decide +kernel, by decide,
    hback 5 (by decide +kernel), hs, ⟨cycle, he, hset, hlength.mp rfl⟩, hpair⟩

end Session

end ContractLinker
