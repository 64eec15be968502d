import ContractLinker.Batch
import ContractLinker.Proofs.Outcome
import ContractLinker.Proofs.Table

/-!
# Linking

What linking succeeds on, and what it leaves. `result_linkLocations` and `result_linkContracts`
take the outcome apart into lookups that do not depend on each other, and `lookup_eq_ok_iff` reads a
single lookup off the registered contracts and the alias table. `get?_dependencies_addLinks` says
that a linked contract depends on the contracts at the paths of its locations, and
`mem_aliases_addLinks` which locations are left to aliases.
-/

namespace ContractLinker

-- ---------------------------------------------------------------------------
-- The contract at a path
-- ---------------------------------------------------------------------------

namespace WorkingSet

/-- The registered contracts without their links. -/
def registered (s : WorkingSet) : List Contract := s.contracts.map (·.toContract)

/-- The contract at a path, without its links. -/
def contractAt? (s : WorkingSet) (path : String) : Option Contract :=
  (s.get? path).map (·.toContract)

theorem contractAt?_eq_some {s : WorkingSet} {path : String} {c : Contract}
    (h : s.contractAt? path = some c) : c ∈ s.registered ∧ c.path = path := by
  obtain ⟨l, hl, rfl⟩ := Option.map_eq_some_iff.mp h
  exact ⟨List.mem_map_of_mem (List.mem_of_find?_eq_some hl), by simpa using List.find?_some hl⟩

theorem contractAt?_eq_none {s : WorkingSet} {path : String} (h : s.contractAt? path = none)
    {c : Contract} (hc : c ∈ s.registered) : c.path ≠ path := by
  obtain ⟨l, hl, rfl⟩ := List.mem_map.mp hc
  simpa using List.find?_eq_none.mp (Option.map_eq_none_iff.mp h) l hl

/-- Only the registered contracts matter to what is found at a path. -/
theorem contractAt?_congr {s t : WorkingSet} (h : s.registered = t.registered) :
    s.contractAt? = t.contractAt? := by
  have hfind : ∀ (u : WorkingSet) path,
      u.contractAt? path = u.registered.find? (·.path = path) := fun u path => by
    rw [registered, List.find?_map]
    rfl
  funext path
  rw [hfind, hfind, h]

/-- With one contract at a path, looking the path up finds it. -/
theorem get?_of_mem {s : WorkingSet} (hs : (s.registered.map (·.path)).Nodup) {l : Linked}
    (hl : l ∈ s.contracts) : s.get? l.path = some l := by
  have hpaths : (s.contracts.map (·.path)).Nodup := by
    simpa [registered, Function.comp_def] using hs
  cases h : s.get? l.path with
  | none => simpa using List.find?_eq_none.mp h l hl
  | some m =>
    have hm : m.path = l.path := by simpa using List.find?_some h
    exact congrArg some (List.inj_on_of_nodup_map hpaths (List.mem_of_find?_eq_some h) hl hm)

theorem contractAt?_of_mem {s : WorkingSet} (hs : (s.registered.map (·.path)).Nodup) {c : Contract}
    (hc : c ∈ s.registered) : s.contractAt? c.path = some c := by
  obtain ⟨l, hl, rfl⟩ := List.mem_map.mp hc
  simp [contractAt?, get?_of_mem hs hl]

end WorkingSet

-- ---------------------------------------------------------------------------
-- Lookups
-- ---------------------------------------------------------------------------

theorem parse_eq_ok_iff {text : String} {a : Address} :
    Address.parse text = .ok a ↔ Address.ofText? text = some a := by
  unfold Address.parse
  cases Address.ofText? text <;> simp

theorem parse_eq_error_iff {text : String} {f : Failure} :
    Address.parse text = .error f ↔ Address.ofText? text = none ∧ f = .malformedAddress text := by
  unfold Address.parse
  cases Address.ofText? text <;> simp [eq_comm]

/-- The failures of a lookup. -/
def Failure.IsLookup : Failure → Prop
  | .unresolved _ => True
  | .malformedAddress _ => True
  | _ => False

namespace Contract

/-- A location has a target: a contract stands at its path, or its alias key is listed with the
text of an address. -/
def Resolves (options : Options) (aliases : AliasTable) (contracts : List Contract)
    (c : Contract) (location : String) : Prop :=
  (∃ d ∈ contracts, d.path = Path.locate c.path location) ∨
    ∃ text a, aliases.get? (Path.aliasKey options.extensions location) = some text ∧
      Address.ofText? text = some a

/-- The outcome of looking up where a location leads. -/
def lookup (options : Options) (aliases : AliasTable) (set : WorkingSet) (c : Contract)
    (location : String) : Except Failure Link :=
  match set.contractAt? (Path.locate c.path location) with
  | some d => .ok (.contract d)
  | none =>
    match aliases.get? (Path.aliasKey options.extensions location) with
    | some text => (Address.parse text).map .alias
    | none =>
      .error (.unresolved ⟨c.name, location, Path.locate c.path location, c.path,
        (c.program.find? location).map (·.span)⟩)

variable {options : Options} {aliases : AliasTable} {set : WorkingSet} {c : Contract}
  {location : String}

theorem lookup_of_contractAt? {d : Contract}
    (h : set.contractAt? (Path.locate c.path location) = some d) :
    c.lookup options aliases set location = .ok (.contract d) := by
  rw [lookup, h]

theorem lookup_eq_ok_contract_iff (options : Options) (aliases : AliasTable) {d : Contract} :
    c.lookup options aliases set location = .ok (.contract d) ↔
      set.contractAt? (Path.locate c.path location) = some d := by
  refine ⟨fun h => ?_, lookup_of_contractAt?⟩
  unfold lookup at h
  split at h
  · next d' hd => cases h; exact hd
  · split at h
    · obtain ⟨a, -, ha⟩ := map_eq_ok.mp h
      cases ha
    · cases h

theorem exists_lookup_eq_ok_iff :
    (∃ target, c.lookup options aliases set location = .ok target) ↔
      c.Resolves options aliases set.registered location := by
  unfold lookup Resolves
  split
  · next d hd =>
    obtain ⟨hm, hp⟩ := WorkingSet.contractAt?_eq_some hd
    exact ⟨fun _ => .inl ⟨d, hm, hp⟩, fun _ => ⟨_, rfl⟩⟩
  · next hd =>
    have hnone : ¬ ∃ d ∈ set.registered, d.path = Path.locate c.path location :=
      fun ⟨d, hm, hp⟩ => WorkingSet.contractAt?_eq_none hd hm hp
    rw [or_iff_right hnone]
    split
    · next text ht =>
      simp only [map_eq_ok, parse_eq_ok_iff, ht, Option.some.injEq]
      constructor
      · rintro ⟨_, a, ha, rfl⟩
        exact ⟨text, a, rfl, ha⟩
      · rintro ⟨_, a, rfl, ha⟩
        exact ⟨_, a, ha, rfl⟩
    · next ht => simp [ht]

theorem isLookup_of_lookup_eq_error {f : Failure}
    (h : c.lookup options aliases set location = .error f) : f.IsLookup := by
  unfold lookup at h
  split at h
  · cases h
  · split at h
    · rw [map_eq_error, Address.parse] at h
      split at h <;> cases h
      trivial
    · cases h
      trivial

end Contract

-- ---------------------------------------------------------------------------
-- Links
-- ---------------------------------------------------------------------------

namespace Linked

/-- Records where locations lead. -/
def addLinks (c : Linked) (links : List (String × Link)) : Linked :=
  links.foldl (fun c link => c.addLink link.1 link.2) c

@[simp] theorem toContract_addLink (c : Linked) (location : String) (target : Link) :
    (c.addLink location target).toContract = c.toContract := by
  cases target <;> rfl

@[simp] theorem toContract_addLinks (c : Linked) (links : List (String × Link)) :
    (c.addLinks links).toContract = c.toContract := by
  induction links generalizing c with
  | nil => rfl
  | cons link links ih => exact (ih _).trans (toContract_addLink c link.1 link.2)

theorem nodup_keys_addLinks {c : Linked} (h : c.dependencies.keys.Nodup)
    (links : List (String × Link)) : (c.addLinks links).dependencies.keys.Nodup := by
  induction links generalizing c with
  | nil => exact h
  | cons link links ih =>
    refine ih ?_
    obtain ⟨location, target⟩ := link
    cases target with
    | contract d => exact Table.nodup_keys_insert h location d
    | _ => exact h

theorem nodup_aliases_addLinks {c : Linked} (h : c.aliases.keys.Nodup)
    (links : List (String × Link)) : (c.addLinks links).aliases.keys.Nodup := by
  induction links generalizing c with
  | nil => exact h
  | cons link links ih =>
    refine ih ?_
    obtain ⟨location, d | a⟩ := link
    · exact h
    · exact Table.nodup_keys_insert h location a

/-- The locations with an alias are those that lead to a plain address. -/
theorem mem_aliases_addLinks {c : Linked} {links : List (String × Link)} {location : String} :
    location ∈ (c.addLinks links).aliases.keys ↔
      location ∈ c.aliases.keys ∨ ∃ a, (location, Link.alias a) ∈ links := by
  induction links generalizing c with
  | nil => simp [addLinks]
  | cons link links ih =>
    obtain ⟨key, target⟩ := link
    rw [show c.addLinks ((key, target) :: links) = (c.addLink key target).addLinks links from rfl,
      ih]
    rcases target with d | a
    · simp [addLink, addDependency]
    · simp only [addLink, addAlias, Table.mem_keys_insert, List.mem_cons, Prod.mk.injEq,
        Link.alias.injEq, exists_or, or_assoc]
      simp

/-- What a location leads to is its dependency, if that is a contract. -/
theorem get?_dependencies_addLinks (target : String → Option Contract)
    {links : List (String × Link)}
    (hl : ∀ link ∈ links, ∀ d, link.2 = .contract d ↔ target link.1 = some d) (c : Linked)
    (location : String) :
    (c.addLinks links).dependencies.get? location =
      (if location ∈ links.map Prod.fst then target location else none).or
        (c.dependencies.get? location) := by
  induction links generalizing c with
  | nil => simp [addLinks]
  | cons link links ih =>
    obtain ⟨key, place⟩ := link
    have htail := ih (fun l h => hl l (List.mem_cons_of_mem _ h)) (c.addLink key place)
    have hhead : ∀ d, place = .contract d ↔ target key = some d :=
      hl (key, place) List.mem_cons_self
    rw [show c.addLinks ((key, place) :: links) = (c.addLink key place).addLinks links from rfl,
      htail, List.map_cons]
    simp only [List.mem_cons]
    cases place with
    | contract d =>
      have hd : target key = some d := (hhead d).mp rfl
      by_cases hk : location = key
      · subst hk
        split <;> simp [addLink, addDependency, hd]
      · rw [if_congr (or_iff_right hk) rfl rfl]
        simp [addLink, addDependency, hk]
    | _ =>
      have hnone : target key = none := by
        cases ht : target key with
        | none => rfl
        | some d => exact nomatch (hhead d).mpr ht
      by_cases hk : location = key
      · subst hk
        simp [addLink, addAlias, hnone]
      · rw [if_congr (or_iff_right hk) rfl rfl]
        simp [addLink, addAlias]

end Linked

namespace Batch

variable {options : Options} {aliases : AliasTable} {set : WorkingSet}

theorem result_link (c : Linked) (location : String) :
    (link options aliases set c location).result = c.lookup options aliases set location := by
  unfold link Contract.lookup WorkingSet.contractAt?
  dsimp only
  cases set.get? (Path.locate c.path location) with
  | some d => rfl
  | none =>
    cases aliases.get? (Path.aliasKey options.extensions location) with
    | none => rfl
    | some text =>
      simp only [Logged.result_bind, Logged.result_note, Logged.result_ofExcept, Option.map_none]
      cases Address.parse text <;> rfl

/-- Linking some locations looks all of them up and records what was found. -/
theorem result_linkLocations (c : Linked) (locations : List String) :
    (linkLocations options aliases set c locations).result =
      (locations.mapM fun l => (c.lookup options aliases set l).map (l, ·)).map c.addLinks := by
  induction locations generalizing c with
  | nil => rfl
  | cons location rest ih =>
    rw [linkLocations, Logged.result_bind, result_link, List.mapM_cons]
    cases h : c.lookup options aliases set location with
    | error f => rfl
    | ok target =>
      have hrest := ih (c.addLink location target)
      rw [Linked.toContract_addLink] at hrest
      simp only [Except.bind, hrest, Except.map, bind]
      split <;> rfl

theorem result_linkContracts (contracts : List Linked) :
    (linkContracts options aliases set contracts).result =
      contracts.mapM fun c => (linkLocations options aliases set c c.program.locations).result := by
  induction contracts with
  | nil => rfl
  | cons c rest ih =>
    rw [linkContracts, Logged.result_bind, List.mapM_cons, ← ih]
    cases (linkLocations options aliases set c c.program.locations).result with
    | error f => rfl
    | ok c' =>
      show (linkContracts options aliases set rest >>= fun others => pure (c' :: others)).result = _
      rw [Logged.result_bind]
      cases (linkContracts options aliases set rest).result <;> rfl

theorem linkAll_of_linked {b : Batch} (h : b.linked = true) :
    (b.linkAll options aliases).result = .ok b.set.contracts := by
  simp [linkAll, h]

theorem linkAll_of_unlinked {b : Batch} (h : b.linked = false) :
    (b.linkAll options aliases).result =
      (linkContracts options aliases b.set b.set.contracts).result := by
  simp only [linkAll, h, Bool.false_eq_true, ↓reduceIte, Logged.result_bind, Logged.result_stage,
    Except.bind]

end Batch

/-- The outcome of linking a contract. -/
def Contract.linked (options : Options) (aliases : AliasTable) (set : WorkingSet) (c : Contract) :
    Except Failure Linked :=
  (Batch.linkLocations options aliases set c.unlinked c.program.locations).result

end ContractLinker
