import ContractLinker.Proofs.Import.Reader
import ContractLinker.Proofs.Session

/-!
# Reports of failed lookups

`reported_lookup`: of all imports that lead nowhere or to a malformed alias, a preparation reports
the first, in the order in which contracts were registered and declare their imports. `Missed` says
what is reported of an import, down to the place of its first declaration.
-/

namespace ContractLinker

-- ---------------------------------------------------------------------------
-- Scans
-- ---------------------------------------------------------------------------

/-- Going through lists one by one fails as going through all of them at once. -/
theorem mapM_flatMap_eq_error_iff {α β γ ε : Type} {f : β → Except ε γ} {g : α → List β}
    {l : List α} {e : ε} :
    (l.flatMap g).mapM f = .error e ↔ l.mapM (fun a => (g a).mapM f) = .error e := by
  induction l with
  | nil => simp
  | cons a l ih =>
    simp only [List.flatMap_cons, List.mapM_append, List.mapM_cons, bind_eq_error, pure_ne_error,
      ih]
    simp

/-- What succeeds with a value does so with whatever becomes of the value. -/
theorem mapM_map_eq_error_iff {α β γ ε : Type} {f : α → Except ε β} {g : α → β → γ} {l : List α}
    {e : ε} : l.mapM (fun a => (f a).map (g a)) = .error e ↔ l.mapM f = .error e := by
  have hok : ∀ a, (∃ c, (f a).map (g a) = .ok c) ↔ ∃ b, f a = .ok b := by simp [map_eq_ok]
  simp only [mapM_eq_error_iff, map_eq_error, hok]

/-- The imports of quoted locations, with the contracts that declare them. -/
def WorkingSet.imports (s : WorkingSet) : List (Contract × String) :=
  s.registered.flatMap fun c => c.program.locations.map (c, ·)

theorem WorkingSet.mem_imports_iff {s : WorkingSet} {c : Contract} {location : String} :
    (c, location) ∈ s.imports ↔ c ∈ s.registered ∧ location ∈ c.program.locations := by
  simp [imports]

theorem Program.find?_eq_some_iff {p : Program} {location : String} {i : Import} :
    p.find? location = some i ↔ ∃ before after, p.imports = before ++ i :: after ∧
      i.location = .quoted location ∧ ∀ j ∈ before, j.location ≠ .quoted location := by
  simp [find?, List.find?_eq_some_iff_append, Import.Location.quoted?_eq_some_iff]
  tauto

theorem Program.exists_find?_of_mem_locations {p : Program} {location : String}
    (h : location ∈ p.locations) : ∃ i, p.find? location = some i := by
  obtain ⟨i, hi, hquoted⟩ := List.mem_filterMap.mp h
  exact Option.isSome_iff_exists.mp (List.find?_isSome.mpr ⟨i, hi, by simpa using hquoted⟩)

namespace Contract

/-- No contract is registered where a location leads. -/
def Unregistered (set : WorkingSet) (c : Contract) (location : String) : Prop :=
  ∀ d ∈ set.registered, d.path ≠ Path.locate c.path location

/-- An import that cannot be resolved, and what is reported of it. -/
inductive Missed (options : Options) (aliases : AliasTable) (set : WorkingSet) (c : Contract)
    (location : String) : Failure → Prop
  | unresolved {before after : List Import} {i : Import} : c.Unregistered set location →
      aliases.get? (Path.aliasKey options.extensions location) = none →
      c.program.imports = before ++ i :: after → i.location = .quoted location →
      (∀ j ∈ before, j.location ≠ .quoted location) →
      Missed options aliases set c location
        (.unresolved ⟨c.name, location, Path.locate c.path location, some c.path, some i.span⟩)
  | malformed {text : String} : c.Unregistered set location →
      aliases.get? (Path.aliasKey options.extensions location) = some text →
      Address.ofText? text = none → Missed options aliases set c location (.malformedAddress text)

variable {options : Options} {aliases : AliasTable} {set : WorkingSet} {c : Contract}
  {location : String} {f : Failure}

theorem unregistered_iff :
    c.Unregistered set location ↔ set.contractAt? (Path.locate c.path location) = none := by
  refine ⟨fun h => ?_, fun h d => WorkingSet.contractAt?_eq_none h⟩
  cases hat : set.contractAt? (Path.locate c.path location) with
  | none => rfl
  | some d =>
    obtain ⟨hd, hp⟩ := WorkingSet.contractAt?_eq_some hat
    exact absurd hp (h d hd)

theorem lookup_eq_error_iff (hl : location ∈ c.program.locations) :
    c.lookup options aliases set location = .error f ↔ c.Missed options aliases set location f := by
  constructor
  · intro h
    unfold lookup at h
    split at h
    · cases h
    · next hat =>
      have hno := unregistered_iff.mpr hat
      split at h
      · next text hkey =>
        obtain ⟨ha, rfl⟩ := parse_eq_error_iff.mp (map_eq_error.mp h)
        exact .malformed hno hkey ha
      · next hkey =>
        obtain ⟨i, hfind⟩ := Program.exists_find?_of_mem_locations hl
        obtain ⟨before, after, he, hi, hbefore⟩ := Program.find?_eq_some_iff.mp hfind
        rw [hfind] at h
        cases h
        exact .unresolved hno hkey he hi hbefore
  · intro h
    unfold lookup
    cases h with
    | unresolved hno hkey he hi hbefore =>
      have hfind := Program.find?_eq_some_iff.mpr ⟨_, _, he, hi, hbefore⟩
      simp only [unregistered_iff.mp hno, hkey, hfind]
      rfl
    | malformed hno hkey ha =>
      simp only [unregistered_iff.mp hno, hkey, map_eq_error]
      exact parse_eq_error_iff.mpr ⟨ha, rfl⟩

/-- What can be looked up is not missed. -/
theorem exists_lookup_eq_ok_iff_not_missed (hl : location ∈ c.program.locations) :
    (∃ target, c.lookup options aliases set location = .ok target) ↔
      ∀ f, ¬ c.Missed options aliases set location f := by
  simp only [← lookup_eq_error_iff hl]
  cases c.lookup options aliases set location <;> simp

end Contract

namespace Batch

variable {options : Options} {aliases : AliasTable} {b : Batch} {f : Failure}

/-- Linking is one scan of the imports. -/
theorem linkContracts_eq_error_iff (set : WorkingSet) :
    (linkContracts options aliases set set.contracts).result = .error f ↔
      set.imports.mapM (fun i => i.1.lookup options aliases set i.2) = .error f := by
  let linkOf (c : Contract) (l : String) : Except Failure (String × Link) :=
    (c.lookup options aliases set l).map (l, ·)
  calc
    _ ↔ set.contracts.mapM (fun c =>
        (c.program.locations.mapM (linkOf c.toContract)).map c.addLinks) = .error f := by
      rw [result_linkContracts]
      simp only [result_linkLocations, linkOf]
    _ ↔ set.contracts.mapM (fun c => c.program.locations.mapM (linkOf c.toContract)) = .error f :=
      mapM_map_eq_error_iff
    _ ↔ set.imports.mapM (fun i => linkOf i.1 i.2) = .error f := by
      rw [WorkingSet.imports, WorkingSet.registered, List.flatMap_map, mapM_flatMap_eq_error_iff]
      simp only [List.mapM_map]
      rfl
    _ ↔ _ := mapM_map_eq_error_iff

theorem prepare_eq_error_iff (hf : f.IsLookup) :
    (b.prepare options aliases).2.result = .error f ↔ b.linked = false ∧
      (linkContracts options aliases b.set b.set.contracts).result = .error f := by
  constructor
  · intro h
    obtain ⟨hlink, hlinked⟩ := linkAll_of_failed_lookup h hf
    exact ⟨hlinked, (linkAll_of_unlinked hlinked).symm.trans hlink⟩
  · rintro ⟨hlinked, hlink⟩
    rw [result_prepare, linkAll_of_unlinked hlinked, hlink]
    rfl

/-- A preparation that fails with a lookup reports the first import that is missed. If it reports
that as unresolved, it is the first one that has neither a contract nor an alias. -/
theorem reported_lookup (options : Options) (aliases : AliasTable) (b : Batch) :
    (∀ f : Failure, f.IsLookup → ((b.prepare options aliases).2.result = .error f ↔
      b.linked = false ∧ ∃ front c location back, b.set.imports = front ++ (c, location) :: back ∧
        (∀ i ∈ front, ∀ g, ¬ i.1.Missed options aliases b.set i.2 g) ∧
        c.Missed options aliases b.set location f)) ∧
    ∀ u, (b.prepare options aliases).2.result = .error (.unresolved u) →
      ∃ front c location back before i after,
        b.set.imports = front ++ (c, location) :: back ∧
        (∀ j ∈ front, (∃ d ∈ b.set.registered, d.path = Path.locate j.1.path j.2) ∨
          ∃ text, aliases.get? (Path.aliasKey options.extensions j.2) = some text) ∧
        (∀ d ∈ b.set.registered, d.path ≠ Path.locate c.path location) ∧
        aliases.get? (Path.aliasKey options.extensions location) = none ∧
        c.program.imports = before ++ i :: after ∧ i.location = .quoted location ∧
        (∀ j ∈ before, j.location ≠ .quoted location) ∧
        u = ⟨c.name, location, Path.locate c.path location, some c.path, some i.span⟩ := by
  have hlocation : ∀ i ∈ b.set.imports, i.2 ∈ i.1.program.locations :=
    fun i hi => (WorkingSet.mem_imports_iff.mp hi).2
  have hscan : ∀ f : Failure, f.IsLookup → ((b.prepare options aliases).2.result = .error f ↔
      b.linked = false ∧ ∃ front c location back, b.set.imports = front ++ (c, location) :: back ∧
        (∀ i ∈ front, ∃ target, i.1.lookup options aliases b.set i.2 = .ok target) ∧
        c.lookup options aliases b.set location = .error f) := by
    intro f hf
    rw [prepare_eq_error_iff hf, linkContracts_eq_error_iff, mapM_eq_error_iff]
    simp only [Prod.exists]
  refine ⟨fun f hf => (hscan f hf).trans (and_congr_right fun _ => ?_), fun u hu => ?_⟩
  · refine exists_congr fun front => exists_congr fun c => exists_congr fun location =>
      exists_congr fun back => and_congr_right fun he => and_congr ?_ ?_
    · have hfront : ∀ i ∈ front, i.2 ∈ i.1.program.locations :=
        fun i hi => hlocation i (he ▸ List.mem_append_left _ hi)
      exact forall₂_congr fun i hi => Contract.exists_lookup_eq_ok_iff_not_missed (hfront i hi)
    · exact Contract.lookup_eq_error_iff (hlocation (c, location) (by simp [he]))
  · obtain ⟨-, front, c, location, back, he, hfront, hc⟩ := (hscan (.unresolved u) trivial).mp hu
    cases (Contract.lookup_eq_error_iff (hlocation (c, location) (by simp [he]))).mp hc with
    | @unresolved before after i hno hkey himports hi hbefore =>
      refine ⟨front, c, location, back, before, i, after, he, fun j hj => ?_, hno, hkey, himports,
        hi, hbefore, rfl⟩
      refine (Contract.exists_lookup_eq_ok_iff.mp (hfront j hj)).imp_right ?_
      rintro ⟨text, a, htext, -⟩
      exact ⟨text, htext⟩

/-- Of a location that is imported twice, the first import is reported, before the malformed alias
of another contract. -/
theorem reported_lookup_declared_twice :
    ∃ (b : Batch) (aliases : AliasTable) (u : UnresolvedImport),
    b.set.imports.map (fun i => (i.1.name, i.2)) =
      [("A", "lib/X"), ("A", "Y"), ("A", "Y"), ("B", "Z")] ∧
    aliases = ⟨[("X", "01"), ("Z", "0x")]⟩ ∧ Address.ofText? "0x" = none ∧
    u = ⟨"A", "Y", "Y", some "A.cdc", some ⟨⟨1, 16⟩, ⟨1, 26⟩⟩⟩ ∧
    (b.prepare {} aliases).2.result = .error (.unresolved u) ∧
    ∃ front c location back, b.set.imports = front ++ (c, location) :: back ∧
      (∀ i ∈ front, ∀ g, ¬ i.1.Missed {} aliases b.set i.2 g) ∧
      c.Missed {} aliases b.set location (.unresolved u) := by
  let read : String → Except Failure String := fun path => .error (.unreadable path "missing")
  let s := (({} : Session).step {} read
    (.addCode "A" "A.cdc" "import \"lib/X\" import \"Y\" import \"Y\"" "01")).1
  let b := (s.step {} read (.addCode "B" "B.cdc" "import \"Z\"" "02")).1.batch
  let aliases : AliasTable := ⟨[("X", "01"), ("Z", "0x")]⟩
  let u : UnresolvedImport := ⟨"A", "Y", "Y", some "A.cdc", some ⟨⟨1, 16⟩, ⟨1, 26⟩⟩⟩
  have hfailed : (b.prepare {} aliases).2.result = .error (.unresolved u) := by decide +kernel
  obtain ⟨-, hfirst⟩ := ((reported_lookup {} aliases b).1 (.unresolved u) trivial).mp hfailed
  exact ⟨b, aliases, u, by decide +kernel, rfl, by decide +kernel, rfl, hfailed, hfirst⟩

end Batch

end ContractLinker
