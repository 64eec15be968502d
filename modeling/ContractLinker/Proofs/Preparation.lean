import ContractLinker.Proofs.Contract.Order
import ContractLinker.Proofs.Registration
import Mathlib.Data.List.Range

/-!
# Preparing a batch

`prepare_outcome`: the first preparation of registered contracts fails with a lookup if some import
leads nowhere, else with a cycle if contracts import each other in a circle, and else puts every
contract behind all that it imports. What registration keeps true is `Open`; `Linking` says what
each contract has become once it is linked.
-/

namespace ContractLinker

open Relation (TransGen)

namespace WorkingSet

/-- One registered contract imports another. -/
def Imports (s : WorkingSet) (c d : Contract) : Prop :=
  c ∈ s.registered ∧ d ∈ s.registered ∧
    ∃ location ∈ c.program.locations, Path.locate c.path location = d.path

/-- The registered contracts; they are numbered in their order and have paths of their own. -/
structure Holds (s : WorkingSet) (cs : List Contract) : Prop where
  registered : s.registered = cs
  ids : cs.map (·.id) = (List.range cs.length).map Int.ofNat
  paths : (cs.map (·.path)).Nodup

theorem Holds.nodup_ids {s : WorkingSet} {cs : List Contract} (h : s.Holds cs) :
    (cs.map (·.id)).Nodup := by
  rw [h.ids]
  exact List.nodup_range.map fun _ _ => Int.ofNat.inj

end WorkingSet

namespace Batch

/-- The batch after a row of successful registrations, with the contracts they returned. -/
inductive Registered : Batch → List Contract → Prop
  | empty : Registered {} []
  | addCode {b b' : Batch} {cs : List Contract} {c : Linked} {name path code target : String} :
      Registered b cs → (b.addCode name path code target).result = .ok (b', c) →
      Registered b' (cs ++ [c.toContract])
  | addSource {b b' : Batch} {cs : List Contract} {c : Linked}
      {read : String → Except Failure String} {name path target : String} :
      Registered b cs → (b.addSource read name path target).result = .ok (b', c) →
      Registered b' (cs ++ [c.toContract])

variable {b b' : Batch} {c : Linked} {options : Options} {aliases : AliasTable}
  {read : String → Except Failure String} {name path code target : String}

-- ---------------------------------------------------------------------------
-- Registration
-- ---------------------------------------------------------------------------

theorem addSource_eq_ok (h : (b.addSource read name path target).result = .ok (b', c)) :
    ∃ code, read path = .ok code ∧ (b.addCode name path code target).result = .ok (b', c) := by
  simp only [addSource, Logged.result_bind, Logged.result_ofExcept] at h
  obtain ⟨⟨⟩, -, h⟩ := bind_eq_ok.mp h
  exact bind_eq_ok.mp h

/-- What holds of a batch until it is prepared: contracts are numbered, have paths of their own
and no links. -/
structure Open (b : Batch) (cs : List Contract) : Prop where
  linked : b.linked = false
  contracts : b.set.contracts = cs.map Contract.unlinked
  ids : cs.map (·.id) = (List.range cs.length).map Int.ofNat
  paths : (cs.map (·.path)).Nodup

theorem Open.registered {cs : List Contract} (h : b.Open cs) : b.set.registered = cs := by
  simp [WorkingSet.registered, h.contracts, Function.comp_def, Contract.unlinked]

theorem Open.holds {cs : List Contract} (h : b.Open cs) : b.set.Holds cs :=
  ⟨h.registered, h.ids, h.paths⟩

theorem Open.addCode {cs : List Contract} (h : b.Open cs)
    (hc : (b.addCode name path code target).result = .ok (b', c)) :
    b'.Open (cs ++ [c.toContract]) := by
  rw [result_addCode] at hc
  obtain ⟨-, hget, hunlinked, hid, hmade, rfl⟩ := registration_eq_ok hc
  refine ⟨h.linked, by simp [h.contracts, ← hunlinked], ?_, ?_⟩
  · simp [h.ids, List.range_succ, hid, WorkingSet.size, h.contracts]
  · have hnone : b.set.contractAt? c.path = none := by
      rw [hmade.path_eq, WorkingSet.contractAt?, hget, Option.map_none]
    have hnew : c.path ∉ cs.map (·.path) := by
      rw [← h.registered]
      intro hm
      obtain ⟨d, hd, hp⟩ := List.mem_map.mp hm
      exact WorkingSet.contractAt?_eq_none hnone hd hp
    simpa using h.paths.concat hnew

theorem Registered.isOpen {cs : List Contract} (h : Registered b cs) : b.Open cs := by
  induction h with
  | empty => exact ⟨rfl, rfl, rfl, List.nodup_nil⟩
  | addCode _ hc ih => exact ih.addCode hc
  | addSource _ hc ih =>
    obtain ⟨code, -, hc⟩ := addSource_eq_ok hc
    exact ih.addCode hc

theorem Open.nodup_ids {cs : List Contract} (h : b.Open cs) : (cs.map (·.id)).Nodup :=
  h.holds.nodup_ids

-- ---------------------------------------------------------------------------
-- Linked contracts
-- ---------------------------------------------------------------------------

/-- What linking makes of a contract: it depends on the contracts at the paths of its locations,
and has aliases for its other locations. -/
structure LinkedFrom (set : WorkingSet) (c : Contract) (l : Linked) : Prop where
  toContract : l.toContract = c
  nodup_keys : l.dependencies.keys.Nodup
  get?_dependencies : ∀ location, l.dependencies.get? location =
    if location ∈ c.program.locations then set.contractAt? (Path.locate c.path location) else none
  nodup_aliases : l.aliases.keys.Nodup
  mem_aliases : ∀ location, location ∈ l.aliases.keys ↔
    location ∈ c.program.locations ∧ set.contractAt? (Path.locate c.path location) = none

theorem LinkedFrom.congr {s t : WorkingSet} {c : Contract} {l : Linked} (h : LinkedFrom s c l)
    (hst : s.registered = t.registered) : LinkedFrom t c l := by
  have hat := WorkingSet.contractAt?_congr hst
  exact ⟨h.toContract, h.nodup_keys, hat ▸ h.get?_dependencies, h.nodup_aliases,
    hat ▸ h.mem_aliases⟩

theorem linkedFrom_of_linkLocations {set : WorkingSet} {c : Contract} {l : Linked}
    (h : (linkLocations options aliases set c.unlinked c.program.locations).result = .ok l) :
    LinkedFrom set c l := by
  rw [result_linkLocations, map_eq_ok] at h
  obtain ⟨links, hlinks, rfl⟩ := h
  obtain ⟨hkeys, hall⟩ := pairs_of_mapM_eq_ok hlinks
  have htargets : ∀ link ∈ links, ∀ d, link.2 = .contract d ↔
      set.contractAt? (Path.locate c.path link.1) = some d := by
    intro link hl d
    have hlink : c.lookup options aliases set link.1 = .ok link.2 := hall link hl
    rw [← Contract.lookup_eq_ok_contract_iff options aliases, hlink, Except.ok.injEq]
  refine ⟨Linked.toContract_addLinks _ _,
    Linked.nodup_keys_addLinks (c := c.unlinked) List.nodup_nil _, fun location => ?_,
    Linked.nodup_aliases_addLinks (c := c.unlinked) List.nodup_nil _, fun location => ?_⟩
  · rw [Linked.get?_dependencies_addLinks (fun l => set.contractAt? (Path.locate c.path l))
      htargets, hkeys]
    exact Option.or_none
  · have hnone : location ∉ c.unlinked.aliases.keys := List.not_mem_nil
    rw [Linked.mem_aliases_addLinks, or_iff_right hnone]
    constructor
    · rintro ⟨a, ha⟩
      refine ⟨hkeys ▸ List.mem_map_of_mem ha, Option.eq_none_iff_forall_ne_some.mpr fun d hd => ?_⟩
      exact nomatch (htargets _ ha d).mpr hd
    · rintro ⟨hlocation, hnone⟩
      obtain ⟨⟨_, d | a⟩, hlink, rfl⟩ := List.mem_map.mp (hkeys ▸ hlocation)
      · exact nomatch hnone.symm.trans ((htargets _ hlink d).mp rfl)
      · exact ⟨a, hlink⟩

/-- Linking a contract succeeds exactly if all its locations have targets. -/
theorem linkLocations_outcome (options : Options) (aliases : AliasTable) (set : WorkingSet)
    (c : Linked) (locations : List String) :
    ((∀ l ∈ locations, c.Resolves options aliases set.registered l) ∧
      ∃ c', (linkLocations options aliases set c locations).result = .ok c') ∨
    ((∃ l ∈ locations, ¬ c.Resolves options aliases set.registered l) ∧
      ∃ f, (linkLocations options aliases set c locations).result = .error f ∧ f.IsLookup) := by
  simp only [result_linkLocations, map_eq_ok, map_eq_error,
    ← Contract.exists_lookup_eq_ok_iff]
  cases h : locations.mapM fun l => (c.lookup options aliases set l).map (l, ·) with
  | ok links =>
    obtain ⟨rfl, hall⟩ := pairs_of_mapM_eq_ok h
    refine .inl ⟨fun l hl => ?_, _, links, rfl, rfl⟩
    obtain ⟨link, hlink, rfl⟩ := List.mem_map.mp hl
    exact ⟨link.2, hall link hlink⟩
  | error f =>
    obtain ⟨l₁, l, l₂, rfl, -, hl⟩ := mapM_eq_error_iff.mp h
    rw [map_eq_error] at hl
    refine .inr ⟨⟨l, by simp, ?_⟩, f, rfl, Contract.isLookup_of_lookup_eq_error hl⟩
    rintro ⟨target, ht⟩
    rw [hl] at ht
    cases ht

theorem Open.result_linkAll {cs : List Contract} (h : b.Open cs) :
    (b.linkAll options aliases).result = cs.mapM (·.linked options aliases b.set) := by
  rw [linkAll_of_unlinked h.linked, result_linkContracts, h.contracts, List.mapM_map]
  rfl

/-- Linking a batch succeeds exactly if all locations of all its contracts have targets. -/
theorem linkAll_outcome (options : Options) (aliases : AliasTable) {cs : List Contract}
    (h : b.Open cs) :
    ((∀ c ∈ cs, ∀ l ∈ c.program.locations, c.Resolves options aliases cs l) ∧
      ∃ ls, (b.linkAll options aliases).result = .ok ls ∧
        List.Forall₂ (LinkedFrom b.set) cs ls) ∨
    ((∃ c ∈ cs, ∃ l ∈ c.program.locations, ¬ c.Resolves options aliases cs l) ∧
      ∃ f, (b.linkAll options aliases).result = .error f ∧ f.IsLookup) := by
  have houtcome := fun c : Contract =>
    linkLocations_outcome options aliases b.set c.unlinked c.program.locations
  rw [h.registered] at houtcome
  rw [h.result_linkAll]
  cases hm : cs.mapM (·.linked options aliases b.set) with
  | ok ls =>
    refine .inl ⟨fun c hc => ?_, ls, rfl, ?_⟩
    · obtain ⟨l, hl⟩ := exists_of_mapM_eq_ok hm hc
      rcases houtcome c with ⟨hall, -⟩ | ⟨-, f, hf, -⟩
      · exact hall
      · exact nomatch hl.symm.trans hf
    · exact (mapM_eq_ok_iff.mp hm).imp fun c l hl => linkedFrom_of_linkLocations hl
  | error f =>
    obtain ⟨l₁, c, l₂, he, -, hf⟩ := mapM_eq_error_iff.mp hm
    have hc : c ∈ cs := he ▸ List.mem_append_right l₁ List.mem_cons_self
    rcases houtcome c with ⟨-, l, hl⟩ | ⟨hsome, g, hg, hlookup⟩
    · exact nomatch hf.symm.trans hl
    · cases hf.symm.trans hg
      exact .inr ⟨⟨c, hc, hsome⟩, f, rfl, hlookup⟩

theorem LinkedFrom.get?_eq_some_iff {set : WorkingSet} {c d : Contract} {l : Linked}
    {location : String} (h : LinkedFrom set c l) :
    l.dependencies.get? location = some d ↔
      location ∈ c.program.locations ∧ set.contractAt? (Path.locate c.path location) = some d := by
  rw [h.get?_dependencies]
  split
  · next hl => exact (and_iff_right hl).symm
  · next hl => simp [hl]

theorem LinkedFrom.mem_dependencies_iff {set : WorkingSet} {c d : Contract} {l : Linked}
    {location : String} (h : LinkedFrom set c l) :
    (location, d) ∈ l.dependencies.entries ↔
      location ∈ c.program.locations ∧ set.contractAt? (Path.locate c.path location) = some d :=
  (Table.mem_entries_iff h.nodup_keys location d).trans h.get?_eq_some_iff

/-- Linked contracts depend on what they import. -/
theorem LinkedFrom.dependsOn_iff {set : WorkingSet} {cs : List Contract} (h : set.Holds cs)
    {l m : Linked} (hl : LinkedFrom set l.toContract l) (hlm : l.toContract ∈ cs)
    (hm : m.toContract ∈ cs) : l.DependsOn m ↔ set.Imports l.toContract m.toContract := by
  have hpaths : (set.registered.map (·.path)).Nodup := h.registered ▸ h.paths
  constructor
  · rintro ⟨⟨location, d⟩, hrow, hid⟩
    obtain ⟨hloc, hat⟩ := hl.mem_dependencies_iff.mp hrow
    obtain ⟨hd, hp⟩ := WorkingSet.contractAt?_eq_some hat
    have hdm : d = m.toContract := List.inj_on_of_nodup_map h.nodup_ids (h.registered ▸ hd) hm hid
    subst hdm
    exact ⟨h.registered ▸ hlm, hd, location, hloc, hp.symm⟩
  · rintro ⟨-, hreg, location, hloc, hp⟩
    refine ⟨(location, m.toContract), hl.mem_dependencies_iff.mpr ⟨hloc, ?_⟩, rfl⟩
    rw [hp]
    exact WorkingSet.contractAt?_of_mem hpaths hreg

theorem LinkedFrom.mem_ids {set : WorkingSet} {cs : List Contract} (h : set.Holds cs)
    {c : Contract} {l : Linked} (hl : LinkedFrom set c l) {row : String × Contract}
    (hr : row ∈ l.dependencies.entries) : row.2.id ∈ cs.map (·.id) := by
  obtain ⟨-, hat⟩ := hl.mem_dependencies_iff.mp hr
  exact List.mem_map_of_mem (h.registered ▸ (WorkingSet.contractAt?_eq_some hat).1)

theorem map_toContract_of_forall₂ {set : WorkingSet} {cs : List Contract} {ls : List Linked}
    (h : List.Forall₂ (LinkedFrom set) cs ls) : ls.map (·.toContract) = cs := by
  induction h with
  | nil => rfl
  | cons hl _ ih => rw [List.map_cons, hl.toContract, ih]

theorem linkedFrom_of_mem {set : WorkingSet} {cs : List Contract} {ls : List Linked}
    (h : List.Forall₂ (LinkedFrom set) cs ls) {l : Linked} (hl : l ∈ ls) :
    LinkedFrom set l.toContract l ∧ l.toContract ∈ cs := by
  obtain ⟨c, hc, hlinked⟩ := exists_of_forall₂ h hl
  have he : l.toContract = c := hlinked.toContract
  exact ⟨he ▸ hlinked, he ▸ hc⟩

section
variable {set : WorkingSet} {cs : List Contract} {ls : List Linked}

theorem map_id_of_forall₂ (hls : List.Forall₂ (LinkedFrom set) cs ls) :
    ls.map (·.id) = cs.map (·.id) := by
  rw [← map_toContract_of_forall₂ hls, List.map_map]
  rfl

theorem nodup_ids_of_forall₂ (h : set.Holds cs) (hls : List.Forall₂ (LinkedFrom set) cs ls) :
    (ls.map (·.id)).Nodup :=
  map_id_of_forall₂ hls ▸ h.nodup_ids

theorem closed_of_forall₂ (h : set.Holds cs) (hls : List.Forall₂ (LinkedFrom set) cs ls) :
    Linked.Closed ls := fun _ hl _ hr =>
  map_id_of_forall₂ hls ▸ (linkedFrom_of_mem hls hl).1.mem_ids h hr

end

-- ---------------------------------------------------------------------------
-- The first preparation
-- ---------------------------------------------------------------------------

theorem result_prepare (b : Batch) :
    (b.prepare options aliases).2.result =
      (b.linkAll options aliases).result.bind Linked.deploymentOrder := by
  unfold prepare
  dsimp only
  split
  · next f hf => rw [hf]; rfl
  · next ls hls =>
    simp only [Logged.result_bind, hls, Except.bind, order, Logged.result_stage,
      Logged.result_ofExcept, Logged.result_note, Logged.result_pure]
    cases Linked.deploymentOrder ls <;> rfl

/-- Linked contracts are put into an order, or a cycle of their dependencies is reported. -/
theorem deploymentOrder_of_forall₂ {set : WorkingSet} {cs : List Contract} (h : set.Holds cs)
    {ls : List Linked} (hls : List.Forall₂ (LinkedFrom set) cs ls) :
    (∃ ordered, Linked.deploymentOrder ls = .ok ordered ∧ ordered.Perm ls ∧
      Linked.Ordered ordered) ∨
    (∃ cycle, Linked.deploymentOrder ls = .error (.cyclic (cycle.map (·.name))) ∧
      cycle ⊆ ls ∧ Linked.IsCycle cycle) :=
  Linked.deploymentOrder_spec (nodup_ids_of_forall₂ h hls) (closed_of_forall₂ h hls)

theorem deploymentOrder_linked {cs : List Contract} (h : b.Open cs) {ls : List Linked}
    (hls : List.Forall₂ (LinkedFrom b.set) cs ls) :
    (∃ ordered, Linked.deploymentOrder ls = .ok ordered ∧
      (ordered.map (·.toContract)).Perm cs ∧
      ∀ l₁ c l₂, ordered.map (·.toContract) = l₁ ++ c :: l₂ →
        ∀ d, b.set.Imports c d → d ∈ l₁) ∨
    (∃ c path, Linked.deploymentOrder ls = .error (.cyclic ((c :: path ++ [c]).map (·.name))) ∧
      (c :: path ++ [c]).IsChain b.set.Imports) := by
  have hmap := map_toContract_of_forall₂ hls
  have hdepends : ∀ l ∈ ls, ∀ m ∈ ls,
      (l.DependsOn m ↔ b.set.Imports l.toContract m.toContract) := fun l hl m hm =>
    have hl := linkedFrom_of_mem hls hl
    hl.1.dependsOn_iff h.holds hl.2 (linkedFrom_of_mem hls hm).2
  rcases deploymentOrder_of_forall₂ h.holds hls with
    ⟨ordered, hok, hperm, hord⟩ | ⟨_, herr, hsub, c, path, rfl, -, hchain⟩
  · refine .inl ⟨ordered, hok, hmap ▸ hperm.map _, ?_⟩
    intro l₁ c l₂ he d hcd
    obtain ⟨front, back, rfl, rfl, hback⟩ := List.map_eq_append_iff.mp he
    obtain ⟨l, rest, rfl, rfl, rfl⟩ := List.map_eq_cons_iff.mp hback
    obtain ⟨m, hm, rfl⟩ : ∃ m ∈ ls, m.toContract = d := by
      simpa [← hmap, h.registered] using hcd.2.1
    have hdep : l.DependsOn m := (hdepends l (hperm.subset (by simp)) m hm).mpr hcd
    exact List.mem_map_of_mem (hord front l rest rfl m (hperm.symm.subset hm) hdep)
  · refine .inr ⟨c.toContract, path.map (·.toContract),
      by simpa [Function.comp_def] using herr, ?_⟩
    have himports : (c :: path ++ [c]).IsChain fun l m => b.set.Imports l.toContract m.toContract :=
      hchain.imp_of_mem_imp fun l m hl hm => (hdepends l (hsub hl) m (hsub hm)).mp
    simpa using (List.isChain_map Linked.toContract).mpr himports

/-- The outcomes of the first preparation: a failed lookup if an import leads nowhere, else a cycle
if there is one, else all contracts, each behind what it imports. -/
theorem prepare_outcome {cs : List Contract} (h : Registered b cs) (options : Options)
    (aliases : AliasTable) :
    ((∃ c ∈ cs, ∃ location ∈ c.program.locations, ¬ c.Resolves options aliases cs location) →
      ∃ f, (b.prepare options aliases).2.result = .error f ∧ f.IsLookup) ∧
    ((∀ c ∈ cs, ∀ location ∈ c.program.locations, c.Resolves options aliases cs location) →
      ((∃ c, TransGen b.set.Imports c c) →
        ∃ c path, (b.prepare options aliases).2.result =
            .error (.cyclic ((c :: path ++ [c]).map (·.name))) ∧
          (c :: path ++ [c]).IsChain b.set.Imports) ∧
      ((¬ ∃ c, TransGen b.set.Imports c c) →
        ∃ ordered, (b.prepare options aliases).2.result = .ok ordered ∧
          (ordered.map (·.toContract)).Nodup ∧ (ordered.map (·.toContract)).Perm cs ∧
          ∀ l₁ c l₂, ordered.map (·.toContract) = l₁ ++ c :: l₂ →
            ∀ d, TransGen b.set.Imports c d → d ∈ l₁)) := by
  have hopen := h.isOpen
  rw [result_prepare]
  rcases linkAll_outcome options aliases hopen with
    ⟨hall, ls, hls, hlinked⟩ | ⟨⟨c, hc, l, hl, hno⟩, f, hf, hlookup⟩
  · rw [hls]
    refine ⟨fun ⟨c, hc, l, hl, hno⟩ => absurd (hall c hc l hl) hno, fun _ => ?_⟩
    rcases deploymentOrder_linked hopen hlinked with
      ⟨ordered, hok, hperm, hbehind⟩ | ⟨c, path, herr, hchain⟩
    · have hnodup : (ordered.map (·.toContract)).Nodup :=
        hperm.nodup_iff.mpr (.of_map _ hopen.nodup_ids)
      refine ⟨fun ⟨c, hcycle⟩ => ?_, fun _ => ⟨ordered, hok, hnodup, hperm, ?_⟩⟩
      · -- A contract of a cycle would have to stand behind itself.
        have hc : c ∈ ordered.map (·.toContract) := by
          obtain ⟨d, hcd, -⟩ := Relation.TransGen.head'_iff.mp hcycle
          exact hperm.symm.subset (hopen.registered ▸ hcd.1)
        obtain ⟨l₁, l₂, he, hnot⟩ := List.eq_append_cons_of_mem hc
        exact absurd (Graph.mem_of_transGen hbehind he hcycle) hnot
      · exact fun l₁ c l₂ he d hcd => Graph.mem_of_transGen hbehind he hcd
    · refine ⟨fun _ => ⟨c, path, herr, hchain⟩, fun hno => absurd ⟨c, ?_⟩ hno⟩
      exact Graph.transGen_of_isChain hchain
  · exact ⟨fun _ => ⟨f, by rw [hf]; rfl, hlookup⟩, fun hall => absurd (hall c hc l hl) hno⟩

/-- Of two contracts the imported one comes first, though it was registered last. -/
theorem prepare_outcome_pair :
    ∃ b c d, Registered b [c, d] ∧ b.set.Imports c d ∧
      (∀ e ∈ [c, d], ∀ location ∈ e.program.locations, e.Resolves {} .empty [c, d] location) ∧
      ∃ ordered l₁ l₂, (b.prepare {} .empty).2.result = .ok ordered ∧
        (ordered.map (·.toContract)).Perm [c, d] ∧
        ordered.map (·.toContract) = l₁ ++ c :: l₂ ∧ d ∈ l₁ := by
  let c : Contract := ⟨0, "C", "lib/C.cdc", ⟨[1]⟩, "import D from \"../D.cdc\"",
    ⟨[⟨["D"], .quoted "../D.cdc", ⟨⟨1, 1⟩, ⟨1, 25⟩⟩⟩], ⟨⟨1, 1⟩, ⟨1, 25⟩⟩, "lib/C.cdc"⟩⟩
  let d : Contract := ⟨1, "D", "D.cdc", ⟨[2]⟩, "", ⟨[], ⟨⟨1, 1⟩, ⟨1, 1⟩⟩, "./D.cdc"⟩⟩
  let b : Batch := ⟨⟨[c.unlinked, d.unlinked], false⟩, false⟩
  have hc : (addCode {} "C" "lib/C.cdc" c.code "01").result =
      .ok (⟨⟨[c.unlinked], false⟩, false⟩, c.unlinked) := by decide +kernel
  have hd : (addCode ⟨⟨[c.unlinked], false⟩, false⟩ "D" "./D.cdc" "" "0x2").result =
      .ok (b, d.unlinked) := by decide +kernel
  have hb : Registered b [c, d] := (Registered.empty.addCode hc).addCode hd
  have hlocate : Path.locate c.path "../D.cdc" = d.path := by decide +kernel
  have hreg : b.set.registered = [c, d] := rfl
  have himports : b.set.Imports c d :=
    ⟨hreg ▸ List.mem_cons_self, hreg ▸ List.mem_cons_of_mem _ List.mem_cons_self, "../D.cdc",
      List.mem_cons_self, hlocate⟩
  have honly : ∀ x y, b.set.Imports x y → x = c ∧ y = d := by
    rintro x y ⟨hx, hy, location, hl, hp⟩
    rw [hreg, List.mem_pair] at hx hy
    rcases hx with rfl | rfl
    · obtain rfl : location = "../D.cdc" := List.mem_singleton.mp hl
      rcases hy with rfl | rfl
      · exact absurd (hlocate.symm.trans hp) (by decide)
      · exact ⟨rfl, rfl⟩
    · exact nomatch hl
  have hresolves : ∀ e ∈ [c, d], ∀ location ∈ e.program.locations,
      e.Resolves {} .empty [c, d] location := by
    intro e he location hl
    rcases List.mem_pair.mp he with rfl | rfl
    · obtain rfl : location = "../D.cdc" := List.mem_singleton.mp hl
      exact .inl ⟨d, by simp, hlocate.symm⟩
    · exact nomatch hl
  have hacyclic : ¬ ∃ e, TransGen b.set.Imports e e := by
    rintro ⟨e, he⟩
    obtain ⟨y, hey, -⟩ := Relation.TransGen.head'_iff.mp he
    obtain ⟨x, -, hxe⟩ := Relation.TransGen.tail'_iff.mp he
    exact absurd ((honly e y hey).1.symm.trans (honly x e hxe).2) (by decide)
  obtain ⟨ordered, hok, -, hperm, hbehind⟩ :=
    ((prepare_outcome hb {} .empty).2 hresolves).2 hacyclic
  obtain ⟨l₁, l₂, he⟩ := List.append_of_mem (hperm.symm.subset (List.mem_cons_self (a := c)))
  exact ⟨b, c, d, hb, himports, hresolves, ordered, l₁, l₂, hok, hperm, he,
    hbehind l₁ c l₂ he d (.single himports)⟩

end Batch

end ContractLinker
