import ContractLinker.Proofs.Contract.Order
import ContractLinker.Proofs.Graph.Queue
import Mathlib.Data.List.Find

/-!
# Contracts whose dependencies are missing

`deploymentOrder_given`: any contracts may be given for an order, some of them several times, and
what they depend on need not be among them. A cycle among those given is reported in any case; then
the first dependency that is missing. The reason is that nothing leads to a missing contract: it is
on no cycle, and it leaves the queue with the sources, which keep the order in which they came.
-/

namespace ContractLinker.Linked

open Relation (TransGen)

/-- What the contracts depend on, in the order in which it is met. -/
def needs (contracts : List Linked) : List Contract :=
  contracts.flatMap fun c => c.dependencies.entries.map Prod.snd

/-- The first dependency whose id none of the contracts has. -/
def missing? (contracts : List Linked) : Option Contract :=
  (needs contracts).find? fun d => d.id ∉ contracts.map (·.id)

/-- Some contract is led back to by dependencies within the given contracts. -/
def Circular (contracts : List Linked) : Prop :=
  ∃ c, TransGen (fun c d => c ∈ contracts ∧ d ∈ contracts ∧ c.DependsOn d) c c

variable {contracts : List Linked}

theorem missing?_eq_none_iff : missing? contracts = none ↔ Closed contracts := by
  simp only [missing?, needs, List.find?_eq_none, List.mem_flatMap, List.mem_map, Closed]
  constructor
  · intro h c hc row hr
    simpa using h row.2 ⟨c, hc, row, hr, rfl⟩
  · rintro h - ⟨c, hc, row, hr, rfl⟩
    simpa using h c hc row hr

-- ---------------------------------------------------------------------------
-- Cycles
-- ---------------------------------------------------------------------------

theorem IsCycle.circular {cycle : List Linked} (h : IsCycle cycle) (hsub : cycle ⊆ contracts) :
    Circular contracts := by
  obtain ⟨c, path, rfl, -, hchain⟩ := h
  refine ⟨c, Graph.transGen_of_isChain (hchain.imp_of_mem_imp ?_)⟩
  exact fun a b ha hb hab => ⟨hsub ha, hsub hb, hab⟩

theorem Circular.exists_transGen (hids : OwnIds contracts) (h : Circular contracts) :
    ∃ n, TransGen (graph contracts).Leads n n := by
  obtain ⟨c, hc⟩ := h
  refine ⟨c.id, Relation.transGen_swap.mp (hc.lift (·.id) ?_)⟩
  exact fun a b hab => (leads_graph_id hids hab.1 b).mpr hab.2.2

theorem circular_iff (hids : OwnIds contracts) :
    Circular contracts ↔ ∃ cycle, (graph contracts).sort = .error cycle := by
  constructor
  · intro h
    exact (Graph.exists_sort_eq_error_iff (wellFormed_graph contracts)).mpr (h.exists_transGen hids)
  · rintro ⟨cycle, hsort⟩
    obtain ⟨members, -, hsub, hcycle⟩ := deploymentOrder_of_sort_eq_error hids hsort
    exact hcycle.circular hsub

/-- Without a cycle contracts can be sorted, whatever is missing. -/
theorem not_circular_iff (hids : OwnIds contracts) :
    ¬ Circular contracts ↔ ∃ order, (graph contracts).sort = .ok order := by
  rw [circular_iff hids]
  cases (graph contracts).sort <;> simp

-- ---------------------------------------------------------------------------
-- The first missing contract
-- ---------------------------------------------------------------------------

/-- Whatever only contracts that are not given have is found first among the nodes as it is found
first among the dependencies. -/
theorem find?_nodes_graph {p : Int → Bool} (h : ∀ c ∈ contracts, p c.id = false) :
    (graph contracts).nodes.find? p = ((needs contracts).map (·.id)).find? p := by
  have hgiven : (contracts.map (·.id)).find? p = none := by
    simpa using h
  have hends : ∀ es : List (Int × Int), (∀ e ∈ es, p e.2 = false) →
      (es.flatMap fun e => [e.1, e.2]).find? p = (es.map Prod.fst).find? p := by
    intro es hes
    induction es with
    | nil => rfl
    | cons e es ih =>
      obtain ⟨he, hrest⟩ := List.forall_mem_cons.mp hes
      simp [List.find?_cons, he, ih hrest]
  have htargets : ∀ e ∈ edges contracts, p e.2 = false := by
    intro e he
    simp only [edges, List.mem_flatMap, List.mem_map] at he
    obtain ⟨c, hc, row, -, rfl⟩ := he
    exact h c hc
  have hstarts : (edges contracts).map Prod.fst = (needs contracts).map (·.id) := by
    simp [edges, needs, List.map_flatMap, Function.comp_def]
  rw [graph_eq, Graph.find?_nodes_foldl p (f := fun e => [e.1, e.2])
      fun g e => Graph.find?_nodes_addEdge p g e.1 e.2,
    List.find?_append, Graph.find?_nodes_foldl p (f := fun n => [n])
      (Graph.find?_nodes_addNode p), hends _ htargets, hstarts]
  simp [Graph.empty, hgiven]

/-- A missing contract leaves the queue before all others that are missing if it is met before
them. -/
theorem find?_of_sort {order : List Int} {p : Int → Bool} (h : ∀ c ∈ contracts, p c.id = false)
    (hsort : (graph contracts).sort = .ok order) {i : Int}
    (hi : ((needs contracts).map (·.id)).find? p = some i) : order.find? p = some i := by
  have hturn := Graph.inTurn_of_sort (wellFormed_graph contracts) hsort
  refine hturn.sources.find?_eq_some ?_
  rw [← hi, ← find?_nodes_graph h, Graph.sources, List.find?_filter]
  refine List.find?_congr fun n _ => ?_
  cases hn : p n with
  | false => simp
  | true =>
    have hsource : ¬ ∃ m, (graph contracts).Leads m n := by
      rintro ⟨m, hm⟩
      obtain ⟨c, hc, -, -, -, rfl⟩ := leads_graph.mp hm
      rw [h c hc] at hn
      contradiction
    simpa [List.eq_nil_iff_forall_not_mem, Graph.mem_predecessors, Graph.Leads] using hsource

theorem mapM_withId_eq_error {ids : List Int} {i : Int}
    (h : ids.find? (fun i => i ∉ contracts.map (·.id)) = some i) :
    ids.mapM (withId contracts) = .error (.unknownContract i) := by
  obtain ⟨hi, front, back, rfl, hfront⟩ := List.find?_eq_some_iff_append.mp h
  refine mapM_eq_error_iff.mpr ⟨front, i, back, rfl, fun j hj => exists_withId ?_, ?_⟩
  · simpa using hfront j hj
  · exact withId_of_not_mem (by simpa using hi)

-- ---------------------------------------------------------------------------
-- The order of any contracts
-- ---------------------------------------------------------------------------

/-- A cycle within the given contracts is reported, whatever is missing. Without one, the first
dependency that is missing is reported, and if there is none, every contract is returned once,
behind all that it depends on. -/
theorem deploymentOrder_given (hids : OwnIds contracts) :
    (Circular contracts →
      ∃ cycle, deploymentOrder contracts = .error (.cyclic (cycle.map (·.name))) ∧
        cycle ⊆ contracts ∧ IsCycle cycle) ∧
    (¬ Circular contracts →
      (∀ d, missing? contracts = some d →
        deploymentOrder contracts = .error (.unknownContract d.id)) ∧
      (missing? contracts = none →
        ∃ ordered, deploymentOrder contracts = .ok ordered ∧ ordered.Nodup ∧
          (∀ c, c ∈ ordered ↔ c ∈ contracts) ∧ Ordered ordered)) := by
  constructor
  · intro hcircular
    obtain ⟨cycle, hsort⟩ := (circular_iff hids).mp hcircular
    exact deploymentOrder_of_sort_eq_error hids hsort
  · intro hacyclic
    obtain ⟨order, hsort⟩ := (not_circular_iff hids).mp hacyclic
    refine ⟨fun d hd => ?_, fun hnone => ?_⟩
    · have hgiven : ∀ c ∈ contracts, decide (c.id ∉ contracts.map (·.id)) = false := fun c hc =>
        decide_eq_false (not_not_intro (List.mem_map_of_mem hc))
      have hfirst : order.find? (fun i => i ∉ contracts.map (·.id)) = some d.id := by
        refine find?_of_sort hgiven hsort ?_
        rw [List.find?_map]
        exact congrArg (Option.map (·.id)) hd
      simp [deploymentOrder, hsort, mapM_withId_eq_error hfirst]
    · exact deploymentOrder_of_sort_eq_ok hids (missing?_eq_none_iff.mp hnone) hsort

/-- A contract that is given twice and has a missing dependency, with and without a contract that
depends on itself. -/
theorem deploymentOrder_given_twice :
    ∃ a b c : Linked, OwnIds [a, b, a] ∧ ¬ Circular [a, b, a] ∧
      deploymentOrder [a, b, a] = .error (.unknownContract 7) ∧
      OwnIds [a, c, a] ∧ Circular [a, c, a] ∧
      ∃ names, deploymentOrder [a, c, a] = .error (.cyclic names) := by
  let program : Program := ⟨[], ⟨⟨1, 1⟩, ⟨1, 1⟩⟩, ""⟩
  let made (id : Int) (name : String) : Contract := ⟨id, name, name, ⟨[1]⟩, "", program⟩
  let a : Linked := { made 0 "A" with dependencies := ⟨[("B", made 1 "B"), ("M", made 7 "M")]⟩ }
  let b : Linked := { made 1 "B" with dependencies := ⟨[("N", made 5 "N")]⟩ }
  let c : Linked := { made 2 "C" with dependencies := ⟨[("C", made 2 "C")]⟩ }
  have hids : OwnIds [a, b, a] := by unfold OwnIds; decide
  have hids' : OwnIds [a, c, a] := by unfold OwnIds; decide
  have hsort : (graph [a, b, a]).sort = .ok [7, 5, 1, 0] := by decide +kernel
  have hacyclic : ¬ Circular [a, b, a] := (not_circular_iff hids).mpr ⟨_, hsort⟩
  have hcircular : Circular [a, c, a] :=
    ⟨c, .single ⟨by simp, by simp, ("C", made 2 "C"), List.mem_singleton_self _, rfl⟩⟩
  obtain ⟨cycle, hcyclic, -⟩ := (deploymentOrder_given hids').1 hcircular
  exact ⟨a, b, c, hids, hacyclic, ((deploymentOrder_given hids).2 hacyclic).1 (made 7 "M")
    (by decide +kernel), hids', hcircular, _, hcyclic⟩

end ContractLinker.Linked
