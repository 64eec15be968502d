import ContractLinker.Proofs.Script

/-!
# What a script asks its tables

A script asks for the path of each of its locations, and for the alias key where no contract stands
at the path. `resolve_of_agree`: with tables that agree on these, the outcome is the same, whatever
else they say. That the addresses of contracts are all read, and those of aliases only when they are
asked for, is why contracts have to have valid addresses and aliases do not.
-/

namespace ContractLinker

theorem Logged.ofExcept_ok_bind {α β : Type} (a : α) (f : α → Logged β) :
    Logged.ofExcept (.ok a) >>= f = f a := rfl

namespace Script

variable {options : Options} {s : Script} {path : String} {targets targets' : Table String Address}
  {contracts contracts' : Table String String} {aliases aliases' : AliasTable}

-- ---------------------------------------------------------------------------
-- The contracts
-- ---------------------------------------------------------------------------

/-- The rows of a table of contracts all have the text of an address. -/
def AreAddresses (contracts : Table String String) : Prop :=
  ∀ row ∈ contracts.entries, ∃ a, Address.ofText? row.2 = some a

instance decidableAreAddresses (contracts : Table String String) :
    Decidable (AreAddresses contracts) :=
  decidable_of_iff (∀ row ∈ contracts.entries, (Address.ofText? row.2).isSome)
    (forall₂_congr fun _ _ => Option.isSome_iff_exists)

/-- The address that a table of contracts has for a clean path: that of the last row whose path
leads there. -/
def addressAt? (contracts : Table String String) (path : String) : Option Address :=
  (contracts.entries.findRev? (Path.clean ·.1 = path)).bind fun row => Address.ofText? row.2

/-- Addresses that can all be read are listed by the clean paths. -/
theorem exists_targetsOf (h : AreAddresses contracts) :
    ∃ targets, targetsOf contracts.entries = .ok targets ∧
      ∀ path, targets.get? path = addressAt? contracts path := by
  let read (row : String × String) : String × Address :=
    (Path.clean row.1, (Address.ofText? row.2).getD default)
  have hread : contracts.entries.mapM
      (fun row => (Address.parse row.2).map (Path.clean row.1, ·)) =
      .ok (contracts.entries.map read) := by
    rw [mapM_eq_ok_iff, List.forall₂_map_right_iff, List.forall₂_same]
    intro row hrow
    obtain ⟨a, ha⟩ := h row hrow
    simp [read, parse_eq_ok_iff.mpr ha, ha, Except.map]
  refine ⟨_, congrArg (Except.map Table.ofList) hread, fun path => ?_⟩
  rw [Table.get?_ofList, Table.findRev?_map, addressAt?]
  show Option.map _ (Option.map read (contracts.entries.findRev? (Path.clean ·.1 = path))) = _
  cases hrow : contracts.entries.findRev? (Path.clean ·.1 = path) with
  | none => rfl
  | some row =>
    obtain ⟨a, ha⟩ := h row (Table.mem_of_findRev?_eq_some hrow)
    simp [read, ha]

-- ---------------------------------------------------------------------------
-- Lookups
-- ---------------------------------------------------------------------------

/-- A lookup reads the row of its path, and failing that the row of its alias key. -/
theorem resolveLocation_congr {location : String}
    (hpath : targets.get? (Path.locate path location) = targets'.get? (Path.locate path location))
    (hkey : targets.get? (Path.locate path location) = none →
      aliases.get? (Path.aliasKey options.extensions location) =
        aliases'.get? (Path.aliasKey options.extensions location)) :
    s.resolveLocation options path targets aliases location =
      s.resolveLocation options path targets' aliases' location := by
  simp only [resolveLocation, ← hpath]
  cases ht : targets.get? (Path.locate path location) with
  | some a => rfl
  | none => rw [hkey ht]

theorem resolveLocations_congr {locations : List String} (resolved : Table String Address)
    (h : ∀ l ∈ locations, s.resolveLocation options path targets aliases l =
      s.resolveLocation options path targets' aliases' l) :
    s.resolveLocations options path targets aliases resolved locations =
      s.resolveLocations options path targets' aliases' resolved locations := by
  induction locations generalizing resolved with
  | nil => rfl
  | cons location rest ih =>
    have hrest := fun resolved => ih resolved fun l hl => h l (List.mem_cons_of_mem _ hl)
    simp only [resolveLocations, h location List.mem_cons_self, hrest]

/-- Two pairs of tables say the same to a script: about the paths of its locations, and about the
alias keys of those at whose path no contract stands. -/
structure Agree (options : Options) (s : Script) (path : String)
    (contracts contracts' : Table String String) (aliases aliases' : AliasTable) : Prop where
  paths : ∀ l ∈ s.program.locations, addressAt? contracts (Path.locate path l) =
    addressAt? contracts' (Path.locate path l)
  keys : ∀ l ∈ s.program.locations, addressAt? contracts (Path.locate path l) = none →
    aliases.get? (Path.aliasKey options.extensions l) =
      aliases'.get? (Path.aliasKey options.extensions l)

theorem Agree.resolve_eq (h : s.Agree options path contracts contracts' aliases aliases')
    (hc : AreAddresses contracts) (hc' : AreAddresses contracts') :
    s.resolve options path contracts aliases = s.resolve options path contracts' aliases' := by
  obtain ⟨targets, htargets, hget⟩ := exists_targetsOf hc
  obtain ⟨targets', htargets', hget'⟩ := exists_targetsOf hc'
  have hlookup : ∀ l ∈ s.program.locations, s.resolveLocation options path targets aliases l =
      s.resolveLocation options path targets' aliases' l := fun l hl =>
    resolveLocation_congr (by rw [hget, hget', h.paths l hl])
      fun hnone => h.keys l hl ((hget _).symm.trans hnone)
  simp only [resolve, htargets, htargets', Logged.ofExcept_ok_bind,
    resolveLocations_congr .empty hlookup]

-- ---------------------------------------------------------------------------
-- Scripts
-- ---------------------------------------------------------------------------

/-- Tables that say the same to a script resolve it alike, with the same text or the same failure,
whatever else stands in them. So what is listed under an alias key is of no effect, be it an address
or not, if contracts stand at the paths of all locations that have the key. -/
theorem resolve_of_agree (options : Options) (s : Script) (path : String) :
    (∀ contracts contracts' aliases aliases', AreAddresses contracts → AreAddresses contracts' →
      s.Agree options path contracts contracts' aliases aliases' →
      s.resolve options path contracts aliases = s.resolve options path contracts' aliases') ∧
    ∀ contracts aliases key text, AreAddresses contracts →
      (∀ l ∈ s.program.locations, Path.aliasKey options.extensions l = key →
        (addressAt? contracts (Path.locate path l)).isSome) →
      s.resolve options path contracts (aliases.insert key text) =
        s.resolve options path contracts aliases := by
  refine ⟨fun _ _ _ _ hc hc' h => h.resolve_eq hc hc', fun contracts aliases key text hc h => ?_⟩
  refine Agree.resolve_eq ⟨fun _ _ => rfl, fun l hl hnone => ?_⟩ hc hc
  have hkey : Path.aliasKey options.extensions l ≠ key := by
    intro hk
    have hsome := h l hl hk
    rw [hnone] at hsome
    cases hsome
  rw [Table.get?_insert, if_neg hkey]

/-- One contract is listed under two spellings of its path, and an alias that is no address under
the key of its location. -/
theorem resolve_of_agree_shadowed_alias :
    let contracts : Table String String := ⟨[("./A.cdc", "01")]⟩
    let contracts' : Table String String := ⟨[("C.cdc", "09"), ("x/../A.cdc", "0x1")]⟩
    let aliases : AliasTable := ⟨[("B", "02")]⟩
    let aliases' : AliasTable := ⟨[("A", "?"), ("B", "02")]⟩
    ∃ s, Script.ofCode "m.cdc" "import \"A.cdc\" import \"lib/B.cdc\"" = .ok s ∧
      AreAddresses contracts ∧ AreAddresses contracts' ∧
      s.Agree {} "m.cdc" contracts contracts' aliases aliases' ∧
      s.resolve {} "m.cdc" contracts aliases = s.resolve {} "m.cdc" contracts' aliases' ∧
      s.resolve {} "m.cdc" contracts (aliases.insert "A" "?") =
        s.resolve {} "m.cdc" contracts aliases ∧
      (s.resolve {} "m.cdc" contracts aliases).result = .ok "import 0x01 import 0x02" := by
  intro contracts contracts' aliases aliases'
  let line (n m : Nat) : Span := ⟨⟨1, n⟩, ⟨1, m⟩⟩
  let s : Script := ⟨"import \"A.cdc\" import \"lib/B.cdc\"", "m.cdc",
    ⟨[⟨[], .quoted "A.cdc", line 1 15⟩, ⟨[], .quoted "lib/B.cdc", line 16 34⟩], line 1 34,
      "m.cdc"⟩⟩
  have hc : AreAddresses contracts := by decide +kernel
  have hc' : AreAddresses contracts' := by decide +kernel
  have hagree : s.Agree {} "m.cdc" contracts contracts' aliases aliases' :=
    ⟨by decide +kernel, by decide +kernel⟩
  obtain ⟨halike, hshadowed⟩ := resolve_of_agree {} s "m.cdc"
  exact ⟨s, by decide +kernel, hc, hc', hagree, halike _ _ _ _ hc hc' hagree,
    hshadowed _ _ "A" "?" hc (by decide +kernel), by decide +kernel⟩

end Script

end ContractLinker
