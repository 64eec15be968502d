import ContractLinker.Proofs.Contract.Renumbering
import ContractLinker.Proofs.Preparation.Report

/-!
# Preparing renumbered contracts

How a first preparation ends is read off the registered contracts by `Open.prepare_cases`, and none
of what it asks for depends on their numbers. `Open.matches_of_perm` compares the links that two
batches of the same contracts get, and `Open.prepare_insert` the orders of a batch without and with
a contract that no other imports.
-/

namespace ContractLinker

open Relation (TransGen)

variable {f g : Int → Int} {options : Options} {aliases : AliasTable} {cs ds : List Contract}

-- ---------------------------------------------------------------------------
-- What does not depend on numbers
-- ---------------------------------------------------------------------------

namespace Contract

/-- All imports of some contracts lead to one of them or to an alias. -/
def Resolvable (options : Options) (aliases : AliasTable) (cs : List Contract) : Prop :=
  ∀ c ∈ cs, ∀ location ∈ c.program.locations, c.Resolves options aliases cs location

theorem Resolves.of_paths {c : Contract} {location : String}
    (h : c.Resolves options aliases cs location) (hpaths : cs.map (·.path) ⊆ ds.map (·.path)) :
    c.Resolves options aliases ds location := by
  refine h.imp_left fun ⟨d, hd, hpath⟩ => ?_
  obtain ⟨e, he, hed⟩ := List.mem_map.mp (hpaths (List.mem_map_of_mem hd))
  exact ⟨e, he, hed.trans hpath⟩

theorem map_path_renumber (f : Int → Int) (cs : List Contract) :
    (cs.map (renumber f)).map (·.path) = cs.map (·.path) := by
  simp [renumber]

theorem map_path_of_renumber (h : cs.map (renumber f) = ds.map (renumber g)) :
    cs.map (·.path) = ds.map (·.path) := by
  rw [← map_path_renumber f, h, map_path_renumber]

theorem Resolvable.of_perm (h : Resolvable options aliases cs)
    (hperm : (cs.map (renumber f)).Perm (ds.map (renumber g))) :
    Resolvable options aliases ds := by
  have hpaths := hperm.map (·.path)
  rw [map_path_renumber, map_path_renumber] at hpaths
  intro d hd location hl
  obtain ⟨c, hc, hcd⟩ := List.mem_map.mp (hperm.symm.subset (List.mem_map_of_mem hd))
  have hprogram : c.program = d.program := (congrArg program hcd :)
  have hpath : c.path = d.path := (congrArg path hcd :)
  have hresolves := (h c hc location (hprogram ▸ hl)).of_paths hpaths.subset
  rwa [Resolves, hpath] at hresolves

end Contract

namespace WorkingSet

variable {s t : WorkingSet}

/-- Some contract imports itself, directly or through others. -/
def Circular (s : WorkingSet) : Prop := ∃ c, TransGen s.Imports c c

theorem Circular.of_perm (hs : s.Holds cs) (ht : t.Holds ds)
    (hperm : (cs.map (Contract.renumber f)).Perm (ds.map (Contract.renumber g)))
    (h : s.Circular) : t.Circular := by
  let partner : Contract → Contract := fun c => (t.contractAt? c.path).getD c
  have hpartner : ∀ c ∈ cs, partner c ∈ ds ∧ (partner c).path = c.path ∧
      (partner c).program = c.program := by
    intro c hc
    obtain ⟨d, hd, hdc⟩ := List.mem_map.mp (hperm.subset (List.mem_map_of_mem hc))
    have hpath : d.path = c.path := (congrArg Contract.path hdc :)
    have hat : t.contractAt? d.path = some d :=
      contractAt?_of_mem (ht.registered ▸ ht.paths) (ht.registered ▸ hd)
    have he : partner c = d := by simp only [partner, ← hpath, hat, Option.getD_some]
    exact ⟨he ▸ hd, he ▸ hpath, he ▸ (congrArg Contract.program hdc :)⟩
  obtain ⟨c, hc⟩ := h
  refine ⟨partner c, hc.lift partner fun x y => ?_⟩
  rintro ⟨hx, hy, location, hl, hlocate⟩
  obtain ⟨hx, hxPath, hxProgram⟩ := hpartner x (hs.registered ▸ hx)
  obtain ⟨hy, hyPath, -⟩ := hpartner y (hs.registered ▸ hy)
  exact ⟨ht.registered ▸ hx, ht.registered ▸ hy, location, hxProgram ▸ hl,
    by rw [hxPath, hyPath, hlocate]⟩

end WorkingSet

namespace Batch

variable {b b' : Batch} {ls : List Linked}

-- ---------------------------------------------------------------------------
-- How a first preparation ends
-- ---------------------------------------------------------------------------

theorem Open.forall₂_linked (h : b.Open cs) (hls : (b.linkAll options aliases).result = .ok ls) :
    List.Forall₂ (fun c l => c.linked options aliases b.set = .ok l) cs ls :=
  mapM_eq_ok_iff.mp (h.result_linkAll.symm.trans hls)

/-- The first preparation of some contracts fails with a lookup, fails with a cycle or orders
them. -/
theorem Open.prepare_cases (h : b.Open cs) (options : Options) (aliases : AliasTable) :
    (∃ f, (b.prepare options aliases).2.result = .error f ∧ f.IsLookup ∧
      ¬ Contract.Resolvable options aliases cs) ∨
    (∃ c path, (b.prepare options aliases).2.result =
        .error (.cyclic ((c :: path ++ [c]).map (·.name))) ∧
      Contract.Resolvable options aliases cs ∧ (c :: path ++ [c]).IsChain b.set.Imports) ∨
    ∃ ordered ls, (b.prepare options aliases).2.result = .ok ordered ∧
      Contract.Resolvable options aliases cs ∧ ¬ b.set.Circular ∧
      (b.linkAll options aliases).result = .ok ls ∧ ordered ⊆ ls ∧
      (ordered.map (·.toContract)).Perm cs := by
  rw [result_prepare]
  rcases linkAll_outcome options aliases h with
    ⟨hall, ls, hls, hlinked⟩ | ⟨⟨c, hc, l, hl, hno⟩, f, hf, hlookup⟩
  · rw [hls]
    rcases deploymentOrder_linked h hlinked with
      ⟨ordered, hok, hperm, hbehind⟩ | ⟨c, path, herr, hchain⟩
    · have hids := nodup_ids_of_forall₂ h.holds hlinked
      refine .inr (.inr ⟨ordered, ls, hok, hall, fun ⟨c, hcycle⟩ => ?_, rfl,
        ((Linked.deploymentOrder_eq_ok_iff (.of_nodup hids)).mp hok).2, hperm⟩)
      obtain ⟨d, hcd, -⟩ := TransGen.head'_iff.mp hcycle
      exact Graph.not_transGen_of_mem hbehind (hperm.symm.subset (h.registered ▸ hcd.1)) hcycle
    · exact .inr (.inl ⟨c, path, herr, hall, hchain⟩)
  · exact .inl ⟨f, by rw [hf]; rfl, hlookup, fun hall => hno (hall c hc l hl)⟩

/-- With well-formed aliases, a failed lookup is an unresolved import. -/
theorem exists_unresolved
    (haliases : ∀ key text, aliases.get? key = some text → ∃ a, Address.ofText? text = some a)
    {f : Failure} (hf : (b.prepare options aliases).2.result = .error f) (hlookup : f.IsLookup) :
    ∃ u, f = .unresolved u := by
  obtain ⟨-, hlink⟩ := (prepare_eq_error_iff hlookup).mp hf
  obtain ⟨_, ⟨c, location⟩, _, he, -, hc⟩ :=
    mapM_eq_error_iff.mp ((linkContracts_eq_error_iff b.set).mp hlink)
  have himport : (c, location) ∈ b.set.imports := he ▸ List.mem_append_right _ List.mem_cons_self
  cases (Contract.lookup_eq_error_iff (WorkingSet.mem_imports_iff.mp himport).2).mp hc with
  | unresolved => exact ⟨_, rfl⟩
  | malformed _ hkey hno =>
    obtain ⟨a, ha⟩ := haliases _ _ hkey
    exact nomatch ha.symm.trans hno

/-- What decides how the first preparation ends, if aliases are well-formed. -/
theorem Open.prepare_iff (h : b.Open cs) (options : Options)
    (haliases : ∀ key text, aliases.get? key = some text → ∃ a, Address.ofText? text = some a) :
    ((∃ ordered, (b.prepare options aliases).2.result = .ok ordered) ↔
      Contract.Resolvable options aliases cs ∧ ¬ b.set.Circular) ∧
    ((∃ u, (b.prepare options aliases).2.result = .error (.unresolved u)) ↔
      ¬ Contract.Resolvable options aliases cs) ∧
    ((∃ names, (b.prepare options aliases).2.result = .error (.cyclic names)) ↔
      Contract.Resolvable options aliases cs ∧ b.set.Circular) := by
  rcases h.prepare_cases options aliases with
    ⟨f, hf, hlookup, hno⟩ | ⟨c, path, herr, hall, hchain⟩ | ⟨ordered, -, hok, hall, hacyclic, -⟩
  · obtain ⟨u, rfl⟩ := exists_unresolved haliases hf hlookup
    simp [hf, hno]
  · have hcircular : b.set.Circular := ⟨c, Graph.transGen_of_isChain hchain⟩
    simp [herr, hall, hcircular]
  · simp [hok, hall, hacyclic]

/-- A successful preparation orders the contracts as they have been linked. -/
theorem Open.prepare_ok (h : b.Open cs) {ordered : List Linked}
    (hok : (b.prepare options aliases).2.result = .ok ordered) :
    (∃ ls, (b.linkAll options aliases).result = .ok ls ∧ ordered ⊆ ls) ∧
      (ordered.map (·.path)).Perm (cs.map (·.path)) := by
  rcases h.prepare_cases options aliases with
    ⟨f, hf, -⟩ | ⟨c, path, herr, -⟩ | ⟨_, ls, hok', -, -, hls, hsub, hperm⟩
  · exact nomatch hok.symm.trans hf
  · exact nomatch hok.symm.trans herr
  · cases hok.symm.trans hok'
    have hpaths := hperm.map (·.path)
    rw [List.map_map] at hpaths
    exact ⟨⟨ls, hls, hsub⟩, hpaths⟩

-- ---------------------------------------------------------------------------
-- The same contracts in another order
-- ---------------------------------------------------------------------------

/-- The contracts of two batches are linked in the same way, if they differ in numbers and order
only. -/
theorem Open.matches_of_perm (h : b.Open cs) (h' : b'.Open ds)
    (hperm : (cs.map (Contract.renumber f)).Perm (ds.map (Contract.renumber g)))
    {ls ls' : List Linked} (hls : (b.linkAll options aliases).result = .ok ls)
    (hls' : (b'.linkAll options aliases).result = .ok ls') {l l' : Linked} (hl : l ∈ ls)
    (hl' : l' ∈ ls') (hpath : l.path = l'.path) : l.Matches l' := by
  obtain ⟨c, hc, hlink⟩ := exists_of_forall₂ (h.forall₂_linked hls) hl
  obtain ⟨d, hd, hlink'⟩ := exists_of_forall₂ (h'.forall₂_linked hls') hl'
  have hcd : c.renumber f = d.renumber g := by
    have hpaths : ((ds.map (Contract.renumber g)).map (·.path)).Nodup := by
      rw [Contract.map_path_renumber]
      exact h'.paths
    refine List.inj_on_of_nodup_map hpaths (hperm.subset (List.mem_map_of_mem hc))
      (List.mem_map_of_mem hd) ?_
    rw [← (linkedFrom_of_linkLocations hlink).toContract,
      ← (linkedFrom_of_linkLocations hlink').toContract]
    exact hpath
  have hat : ∀ path, (b.set.contractAt? path).map (Contract.renumber f) =
      (b'.set.contractAt? path).map (Contract.renumber g) := fun path =>
    WorkingSet.map_contractAt?_congr (h.registered ▸ h.paths) (h'.registered ▸ h'.paths)
      fun x _ => h.registered ▸ h'.registered ▸ hperm.mem_iff
  have hsame : (c.linked options aliases b.set).map (Linked.renumber f) =
      (d.linked options aliases b'.set).map (Linked.renumber g) :=
    Contract.map_linked hcd fun _ _ => hat _
  rw [hlink, hlink'] at hsame
  exact .of_renumber (Except.ok.inj hsame)

-- ---------------------------------------------------------------------------
-- One more contract
-- ---------------------------------------------------------------------------

theorem filter_ne_of_nodup_map {α β : Type} [DecidableEq β] {key : α → β} {l₁ l₂ : List α} {a : α}
    (h : ((l₁ ++ a :: l₂).map key).Nodup) :
    (l₁ ++ a :: l₂).filter (key · ≠ key a) = l₁ ++ l₂ := by
  have hperm : ((a :: (l₁ ++ l₂)).map key).Nodup :=
    (List.perm_middle.map key).nodup_iff.mp h
  have hne : ∀ x ∈ l₁ ++ l₂, decide (key x ≠ key a) = true := fun x hx => by
    rw [List.map_cons, List.nodup_cons] at hperm
    exact decide_eq_true fun he => hperm.1 (he ▸ List.mem_map_of_mem hx)
  rw [List.filter_append, List.filter_cons_of_neg (by simp), ← List.filter_append,
    List.filter_eq_self.mpr hne]

section
variable {front back : List Contract} {n : Contract}

/-- With a contract that no other imports, the others are linked as before. -/
theorem Open.linkAll_insert (h : b.Open cs) (h' : b'.Open (front ++ n :: back))
    (hcs : cs.map (Contract.renumber f) = front ++ back)
    (hleaf : ∀ c ∈ front ++ n :: back, ∀ location ∈ c.program.locations,
      Path.locate c.path location ≠ n.path)
    (hresolves : ∀ location ∈ n.program.locations,
      n.Resolves options aliases (front ++ n :: back) location)
    (hls : (b.linkAll options aliases).result = .ok ls) :
    ∃ l₁ m l₂, (b'.linkAll options aliases).result = .ok (l₁ ++ m :: l₂) ∧ m.toContract = n ∧
      ls.map (Linked.renumber f) = l₁ ++ l₂ := by
  have hlink : ∀ c ∈ cs, (c.linked options aliases b.set).map (Linked.renumber f) =
      (c.renumber f).linked options aliases b'.set := by
    intro c hc
    have hmem : c.renumber f ∈ front ++ n :: back :=
      List.Sublist.subset (by simp) (hcs ▸ List.mem_map_of_mem hc)
    have hsame : (c.linked options aliases b.set).map (Linked.renumber f) =
        ((c.renumber f).linked options aliases b'.set).map (Linked.renumber id) := by
      refine Contract.map_linked rfl fun location hl => ?_
      refine WorkingSet.map_contractAt?_congr (h.registered ▸ h.paths) (h'.registered ▸ h'.paths) ?_
      intro x hx
      have hxn : x ≠ n := fun he => hleaf _ hmem location hl (hx.symm.trans (congrArg _ he))
      have hid : (front ++ n :: back).map (Contract.renumber id) = front ++ n :: back :=
        List.map_id' _
      rw [h.registered, h'.registered, hcs, hid]
      simp [hxn]
    rw [hsame]
    cases (c.renumber f).linked options aliases b'.set <;> simp [Except.map]
  have hothers : (front ++ back).mapM (·.linked options aliases b'.set) =
      .ok (ls.map (Linked.renumber f)) := by
    rw [← hcs, List.mapM_map]
    refine (mapM_congr fun c hc => (hlink c hc).symm).trans ?_
    rw [← map_mapM, ← h.result_linkAll, hls]
    rfl
  obtain ⟨m, hm⟩ : ∃ m, n.linked options aliases b'.set = .ok m := by
    rcases linkLocations_outcome options aliases b'.set n.unlinked n.program.locations with
      ⟨-, hm⟩ | ⟨⟨l, hl, hno⟩, -⟩
    · exact hm
    · exact absurd (hresolves l hl) (h'.registered ▸ hno)
  rw [List.mapM_append, bind_eq_ok] at hothers
  obtain ⟨l₁, hl₁, hothers⟩ := hothers
  obtain ⟨l₂, hl₂, hothers⟩ := bind_eq_ok.mp hothers
  refine ⟨l₁, m, l₂, ?_, (linkedFrom_of_linkLocations hm).toContract,
    (pure_eq_ok.mp hothers).symm⟩
  rw [h'.result_linkAll, List.mapM_append, List.mapM_cons, hl₁, hm, hl₂]
  rfl

theorem ends_of_forall₂ {set : WorkingSet} (h : set.Holds cs)
    (hls : List.Forall₂ (LinkedFrom set) cs ls) (hn : n ∈ cs)
    (hleaf : ∀ c ∈ cs, ∀ location ∈ c.program.locations, Path.locate c.path location ≠ n.path) :
    Linked.Ends ls n.id := by
  intro l hl row hr hid
  obtain ⟨hlinked, hc⟩ := linkedFrom_of_mem hls hl
  obtain ⟨hlocation, hat⟩ := hlinked.mem_dependencies_iff.mp hr
  obtain ⟨hd, hpath⟩ := WorkingSet.contractAt?_eq_some hat
  have hrow : row.2 = n := List.inj_on_of_nodup_map h.nodup_ids (h.registered ▸ hd) hn hid
  exact hleaf _ hc row.1 hlocation (hpath.symm.trans (congrArg _ hrow))

/-- A contract that no other imports does not change the order of the others. -/
theorem Open.prepare_insert {ordered : List Linked}
    (h : b.Open cs) (h' : b'.Open (front ++ n :: back)) (hf : f.Injective)
    (hcs : cs.map (Contract.renumber f) = front ++ back)
    (hleaf : ∀ c ∈ front ++ n :: back, ∀ location ∈ c.program.locations,
      Path.locate c.path location ≠ n.path)
    (hresolves : ∀ location ∈ n.program.locations,
      n.Resolves options aliases (front ++ n :: back) location)
    (hok : (b.prepare options aliases).2.result = .ok ordered) :
    ∃ whole, (b'.prepare options aliases).2.result = .ok whole ∧
      whole.filter (·.path ≠ n.path) = ordered.map (Linked.renumber f) := by
  rw [result_prepare] at hok
  obtain ⟨ls, hls, horder⟩ := bind_eq_ok.mp hok
  obtain ⟨l₁, m, l₂, hls', hm, hmap⟩ := h.linkAll_insert h' hcs hleaf hresolves hls
  have hlinked := (h.forall₂_linked hls).imp fun _ _ hl => linkedFrom_of_linkLocations hl
  have hlinked' := (h'.forall₂_linked hls').imp fun _ _ hl => linkedFrom_of_linkLocations hl
  have hids := nodup_ids_of_forall₂ h.holds hlinked
  have hids' := nodup_ids_of_forall₂ h'.holds hlinked'
  have hothers : (l₁ ++ m :: l₂).filter (·.id ≠ n.id) = ls.map (Linked.renumber f) := by
    rw [hmap, ← filter_ne_of_nodup_map hids', ← hm]
  have horder' := hothers ▸ Linked.deploymentOrder_renumber hf hids horder
  obtain ⟨whole, hwhole, hfilter⟩ := Linked.deploymentOrder_of_filter hids'
    (closed_of_forall₂ h'.holds hlinked') (ends_of_forall₂ h'.holds hlinked' (by simp) hleaf)
    horder'
  refine ⟨whole, by rw [result_prepare, hls']; exact hwhole, ?_⟩
  rw [← hfilter]
  refine List.filter_congr fun l hl => decide_eq_decide.mpr (not_congr ?_)
  -- Among the registered contracts, number and path each tell which one it is.
  have hmem := ((Linked.deploymentOrder_eq_ok_iff (.of_nodup hids')).mp hwhole).2 hl
  obtain ⟨-, hc⟩ := linkedFrom_of_mem hlinked' hmem
  have hn : n ∈ front ++ n :: back := by simp
  exact ⟨fun hpath => congrArg Contract.id (List.inj_on_of_nodup_map h'.paths hc hn hpath),
    fun hid => congrArg Contract.path (List.inj_on_of_nodup_map h'.nodup_ids hc hn hid)⟩

end

end Batch

end ContractLinker
