import ContractLinker.Proofs.Address
import ContractLinker.Proofs.Import.Reader
import ContractLinker.Proofs.Linking
import ContractLinker.Proofs.Substitution.Order
import ContractLinker.Script

/-!
# Contracts as scripts

The code of a contract can be resolved as a script, with the targets of the registered contracts
listed by their paths. That looks its locations up as linking does: `resolved_of_lookups`,
`resolved_of_failed_lookup`. But linking puts in what leads to contracts before what aliases give,
and a script takes its locations as they are declared. `Roomy` says when the order does not show,
and `Splits.locations_eq` that it then does not.
-/

namespace ContractLinker

-- ---------------------------------------------------------------------------
-- Links and targets
-- ---------------------------------------------------------------------------

/-- The address that a link leads to. -/
def Link.target : Link → Address
  | .contract c => c.target
  | .alias a => a

/-- The rows of a contract's links, those to contracts and the others, are the rows of one table,
picked by their locations. -/
structure Linked.Splits (p : String → Bool) (c : Linked) (t : Table String Address) : Prop where
  dependencies : c.dependencies.entries.map (fun row => (row.1, row.2.target)) =
    t.entries.filter fun row => p row.1
  aliases : c.aliases.entries = t.entries.filter fun row => !p row.1

namespace Linked

variable {p : String → Bool} {c : Linked} {t : Table String Address} {location : String}
  {links : List (String × Link)}

theorem Splits.addLink (h : Splits p c t) {link : Link}
    (hp : p location = true ↔ ∃ d, link = .contract d) :
    Splits p (c.addLink location link) (t.insert location link.target) := by
  rcases link with d | a
  · have hl : p location = true := hp.mpr ⟨d, rfl⟩
    constructor
    · simp only [Linked.addLink, addDependency, Table.insert, Link.target,
        Table.map_put fun d : Contract => d.target, Table.filter_put p, h.dependencies, hl, if_true]
    · simp [Linked.addLink, addDependency, Table.insert, Table.filter_put fun k => !p k, h.aliases,
        hl]
  · have hl : p location = false := Bool.eq_false_iff.mpr fun hl => by
      obtain ⟨d, hd⟩ := hp.mp hl
      cases hd
    constructor
    · simp [Linked.addLink, addAlias, Table.insert, Table.filter_put p, h.dependencies, hl]
    · simp [Linked.addLink, addAlias, Table.insert, Link.target, Table.filter_put fun k => !p k,
        h.aliases, hl]

theorem Splits.addLinks (h : Splits p c t)
    (hp : ∀ link ∈ links, (p link.1 = true ↔ ∃ d, link.2 = .contract d)) :
    Splits p (c.addLinks links) (t.insertAll (links.map fun link => (link.1, link.2.target))) := by
  induction links generalizing c t with
  | nil => exact h
  | cons link links ih =>
    exact ih (h.addLink (hp link List.mem_cons_self)) fun l hl => hp l (List.mem_cons_of_mem _ hl)

theorem Splits.targets (h : Splits p c t) : c.targets =
    t.entries.filter (fun row => p row.1) ++ t.entries.filter fun row => !p row.1 := by
  rw [Linked.targets, h.dependencies, h.aliases]

end Linked

-- ---------------------------------------------------------------------------
-- Resolving a script
-- ---------------------------------------------------------------------------

namespace Script

variable {options : Options} {aliases : AliasTable} {s : Script} {path : String}
  {targets : Table String Address}

/-- Locations are looked up one by one; those that are met again have the address they had. -/
theorem result_resolveLocations (locations : List String) {resolved : Table String Address}
    (h : ∀ l a, resolved.get? l = some a →
      s.resolveLocation options path targets aliases l = .ok a) :
    (s.resolveLocations options path targets aliases resolved locations).result =
      (locations.mapM fun l => (s.resolveLocation options path targets aliases l).map (l, ·)).map
        resolved.insertAll := by
  induction locations generalizing resolved with
  | nil => rfl
  | cons location rest ih =>
    rw [resolveLocations, List.mapM_cons]
    split
    · next hcontains =>
      obtain ⟨a, ha⟩ := Option.isSome_iff_exists.mp hcontains
      rw [ih h, h location a ha]
      cases rest.mapM fun l => (s.resolveLocation options path targets aliases l).map (l, ·) with
      | error f => rfl
      | ok pairs =>
        simp [Except.map, bind, Except.bind, pure, Except.pure, Table.insert_of_get? ha]
    · cases ha : s.resolveLocation options path targets aliases location with
      | error f => rfl
      | ok a =>
        have hresolved : ∀ l b, (resolved.insert location a).get? l = some b →
            s.resolveLocation options path targets aliases l = .ok b := by
          intro l b hb
          rw [Table.get?_insert] at hb
          split at hb
          · next hl => cases hb; rw [hl, ha]
          · exact h l b hb
        simp only [Logged.result_bind, Logged.result_ofExcept, Logged.result_note, Except.bind,
          ih hresolved]
        cases rest.mapM fun l => (s.resolveLocation options path targets aliases l).map (l, ·) with
        | error f => rfl
        | ok pairs => rfl

theorem result_resolve (contracts : Table String String) :
    (s.resolve options path contracts aliases).result =
      (targetsOf contracts.entries).bind fun targets =>
        (s.program.locations.mapM fun l =>
          (s.resolveLocation options path targets aliases l).map (l, ·)).map fun pairs =>
          Substitution.locations options.everyOccurrence s.code (Table.ofList pairs).entries := by
  have hempty : ∀ (targets : Table String Address) l a,
      (Table.empty : Table String Address).get? l = some a →
        s.resolveLocation options path targets aliases l = .ok a := fun _ _ _ h => nomatch h
  simp only [resolve, Logged.result_bind, Logged.result_stage, Logged.result_ofExcept,
    Logged.result_pure, Except.bind, result_resolveLocations _ (hempty _)]
  cases targetsOf contracts.entries with
  | error f => rfl
  | ok targets =>
    dsimp only
    cases s.program.locations.mapM fun l =>
      (s.resolveLocation options path targets aliases l).map (l, ·) <;> rfl

end Script

-- ---------------------------------------------------------------------------
-- Contracts as scripts
-- ---------------------------------------------------------------------------

/-- The targets of the registered contracts by their paths, as a script is given them. -/
def WorkingSet.targetTable (s : WorkingSet) : Table String String :=
  .ofList (s.registered.map fun c => (c.path, c.target.literal))

/-- The registered contracts have clean paths of their own, targets that have literals, and the
programs that their codes say. -/
structure WorkingSet.Sourced (s : WorkingSet) : Prop where
  paths : (s.registered.map (·.path)).Nodup
  clean : ∀ c ∈ s.registered, Path.clean c.path = c.path
  targets : ∀ c ∈ s.registered, c.target.bytes ≠ []
  programs : ∀ c ∈ s.registered, ∃ filename, Program.parse filename c.code = .ok c.program

/-- A failure as it is reported of the code at a path. -/
def Failure.reportedOf (path : String) : Failure → Failure
  | .unresolved u => .unresolved { u with importer := path }
  | f => f

namespace Contract

/-- What resolving a contract's code as a script gives. -/
def resolved (options : Options) (set : WorkingSet) (aliases : AliasTable) (every : Bool)
    (c : Contract) : Except Failure String := do
  let script ← Script.ofCode c.path c.code
  (script.resolve { options with everyOccurrence := every } c.path set.targetTable aliases).result

/-- The script that a contract's code makes. -/
def script (c : Contract) : Script := ⟨c.code, c.path, { c.program with filename := c.path }⟩

variable {options : Options} {aliases : AliasTable} {set : WorkingSet} {c : Contract}
  {location : String} {targets : Table String Address}

theorem ofCode_eq {filename : String} (h : Program.parse filename c.code = .ok c.program) :
    Script.ofCode c.path c.code = .ok c.script := by
  obtain ⟨seq, imports, hseq, hread, hp⟩ := Program.parse_eq_ok.mp h
  have hparse : Program.parse c.path c.code = .ok { c.program with filename := c.path } :=
    Program.parse_eq_ok.mpr ⟨seq, imports, hseq, hread, by rw [hp]⟩
  rw [Script.ofCode, hparse]
  rfl

/-- A location of a script is looked up as that of the contract. -/
theorem resolveLocation_eq
    (ht : ∀ path, targets.get? path = (set.contractAt? path).map (·.target)) :
    c.script.resolveLocation options c.path targets aliases location =
      ((c.lookup options aliases set location).map Link.target).mapError (·.reportedOf c.path) := by
  simp only [lookup, Script.resolveLocation, ht]
  cases set.contractAt? (Path.locate c.path location) with
  | some d => rfl
  | none =>
    cases aliases.get? (Path.aliasKey options.extensions location) with
    | none => rfl
    | some text =>
      cases ha : Address.parse text with
      | ok a => simp [ha, Except.map, Except.mapError, Link.target]
      | error f =>
        obtain ⟨-, rfl⟩ := parse_eq_error_iff.mp ha
        simp [ha, Except.map, Except.mapError, Failure.reportedOf]

end Contract

namespace WorkingSet

variable {s : WorkingSet}

theorem Sourced.targetsOf (h : s.Sourced) : Script.targetsOf s.targetTable.entries =
    .ok (.ofList (s.registered.map fun c => (c.path, c.target))) := by
  have hentries : s.targetTable.entries = s.registered.map fun c => (c.path, c.target.literal) :=
    Table.entries_ofList (by simpa [Function.comp_def] using h.paths)
  have hrows : (s.registered.map fun c => (c.path, c.target.literal)).mapM
      (fun row => (Address.parse row.2).map (Path.clean row.1, ·)) =
      .ok (s.registered.map fun c => (c.path, c.target)) := by
    rw [mapM_eq_ok_iff, List.forall₂_map_left_iff, List.forall₂_map_right_iff, List.forall₂_same]
    intro c hc
    have hparse : Address.parse c.target.literal = .ok c.target :=
      parse_eq_ok_iff.mpr (Address.ofText?_literal (h.targets c hc))
    rw [hparse, h.clean c hc]
    rfl
  rw [Script.targetsOf, hentries, hrows]
  rfl

theorem Sourced.get?_targets (h : s.Sourced) (path : String) :
    (Table.ofList (s.registered.map fun c => (c.path, c.target))).get? path =
      (s.contractAt? path).map (·.target) := by
  have hentries : (Table.ofList (s.registered.map fun c => (c.path, c.target))).entries =
      s.registered.map fun c => (c.path, c.target) :=
    Table.entries_ofList (by simpa [Function.comp_def] using h.paths)
  rw [Table.get?, hentries, Table.find_map, registered, contractAt?, List.find?_map, get?]
  rfl

end WorkingSet

namespace Contract

variable {options : Options} {aliases : AliasTable} {set : WorkingSet} {c : Contract}
  {every : Bool}

theorem resolved_eq (h : set.Sourced) (hc : c ∈ set.registered) :
    c.resolved options set aliases every =
      (c.program.locations.mapM fun l => (c.script.resolveLocation options c.path
        (.ofList (set.registered.map fun c => (c.path, c.target))) aliases l).map (l, ·)).map
      fun pairs => Substitution.locations every c.code (Table.ofList pairs).entries := by
  obtain ⟨filename, hparse⟩ := h.programs c hc
  rw [resolved, ofCode_eq hparse]
  show (c.script.resolve _ c.path set.targetTable aliases).result = _
  rw [Script.result_resolve, h.targetsOf]
  rfl

/-- The links of a contract lead to the contracts at their paths, or else are aliases. -/
theorem splits_addLinks {links : List (String × Link)}
    (hall : ∀ link ∈ links, c.lookup options aliases set link.1 = .ok link.2) :
    Linked.Splits (fun l => (set.contractAt? (Path.locate c.path l)).isSome)
      (c.unlinked.addLinks links) (.ofList (links.map fun link => (link.1, link.2.target))) := by
  refine Linked.Splits.addLinks ⟨rfl, rfl⟩ fun link hl => ?_
  rw [Option.isSome_iff_exists]
  refine exists_congr fun d => ?_
  rw [← lookup_eq_ok_contract_iff options aliases, hall link hl, Except.ok.injEq]

theorem resolved_of_lookups {links : List (String × Link)} (h : set.Sourced)
    (hc : c ∈ set.registered) (hkeys : links.map Prod.fst = c.program.locations)
    (hall : ∀ link ∈ links, c.lookup options aliases set link.1 = .ok link.2) :
    c.resolved options set aliases every = .ok (Substitution.locations every c.code
      (Table.ofList (links.map fun link => (link.1, link.2.target))).entries) := by
  rw [resolved_eq h hc, map_eq_ok]
  refine ⟨_, ?_, rfl⟩
  rw [← hkeys, mapM_eq_ok_iff, List.forall₂_map_left_iff, List.forall₂_map_right_iff,
    List.forall₂_same]
  intro link hl
  rw [resolveLocation_eq h.get?_targets, hall link hl]
  rfl

theorem resolved_of_failed_lookup {f : Failure} (h : set.Sourced) (hc : c ∈ set.registered)
    (hf : c.program.locations.mapM (fun l => (c.lookup options aliases set l).map (l, ·)) =
      .error f) :
    c.resolved options set aliases every = .error (f.reportedOf c.path) := by
  rw [resolved_eq h hc, map_eq_error]
  obtain ⟨front, l, back, he, hfront, hl⟩ := mapM_eq_error_iff.mp hf
  refine mapM_eq_error_iff.mpr ⟨front, l, back, he, fun k hk => ?_, ?_⟩
  · obtain ⟨_, hlink⟩ := hfront k hk
    obtain ⟨target, htarget, -⟩ := map_eq_ok.mp hlink
    rw [resolveLocation_eq h.get?_targets, htarget]
    exact ⟨_, rfl⟩
  · rw [resolveLocation_eq h.get?_targets, map_eq_error.mp hl]
    rfl

end Contract

-- ---------------------------------------------------------------------------
-- The order of keys
-- ---------------------------------------------------------------------------

namespace Table

variable {κ α : Type} [DecidableEq κ] {pairs : List (κ × α)} {x y : κ}

/-- Keys stand in the order in which they first come. -/
theorem mem_takeWhile_of_precedes (h : Precedes (ofList pairs).keys x y) :
    x ∈ (pairs.map Prod.fst).takeWhile (· ≠ y) := by
  induction pairs using List.reverseRecOn with
  | nil => exact nomatch h.mem_left
  | append_singleton pairs pair ih =>
    have hnodup := nodup_keys_ofList (pairs ++ [pair])
    have hfront : Precedes (ofList pairs).keys x y →
        x ∈ ((pairs ++ [pair]).map Prod.fst).takeWhile (· ≠ y) := fun hfront => by
      rw [List.map_append, List.takeWhile_append]
      split
      · exact List.mem_append_left _ ((List.takeWhile_sublist _).subset (ih hfront))
      · exact ih hfront
    rw [ofList_concat, keys_insert] at h hnodup
    split at h
    · exact hfront h
    · next hnew =>
      rw [if_neg hnew] at hnodup
      rcases List.mem_append.mp h.mem_right with hy | hy
      · exact hfront (h.of_append hnodup hy)
      · obtain rfl := List.mem_singleton.mp hy
        have hx : x ∈ (ofList pairs).keys := by
          refine (List.mem_append.mp h.mem_left).resolve_right fun hx => ?_
          obtain rfl := List.mem_singleton.mp hx
          exact h.asymm hnodup h
        have hother : ∀ k ∈ pairs.map Prod.fst, decide (k ≠ pair.1) = true := fun k hk =>
          decide_eq_true fun he => hnew (he ▸ mem_keys_ofList.mpr hk)
        rw [List.map_append, List.takeWhile_append_of_pos hother]
        exact List.mem_append_left _ (mem_keys_ofList.mp hx)

end Table

-- ---------------------------------------------------------------------------
-- Room for literals
-- ---------------------------------------------------------------------------

/-- A quoted location is declared before another one first is. -/
def Program.Before (p : Program) (x y : String) : Prop := x ∈ p.locations.takeWhile (· ≠ y)

namespace Linked

open Substitution

/-- A location has no literal in it that is put for a location declared before it. -/
def Untouched (c : Linked) (y : String) : Prop :=
  ∀ k ∈ c.targets, c.program.Before k.1 y → ¬ Contains y k.2

/-- Where a location with an alias is declared before one that leads to a contract, they share no
character anywhere in the code, and are not changed by what is put in before them. -/
def Roomy (c : Linked) : Prop :=
  ∀ a ∈ c.aliases.entries, ∀ d ∈ c.dependencies.entries, c.program.Before a.1 d.1 →
    Apart (quotedSpelling a.1.toList) (quotedSpelling d.1.toList) c.code.toList ∧
      ¬ Contains a.1 d.2.target ∧ c.Untouched a.1 ∧ c.Untouched d.1

instance decidableUntouched (c : Linked) (y : String) : Decidable (c.Untouched y) :=
  inferInstanceAs (Decidable (∀ k ∈ c.targets, k.1 ∈ c.program.locations.takeWhile (· ≠ y) → _))

instance decidableRoomy (c : Linked) : Decidable c.Roomy :=
  inferInstanceAs (Decidable (∀ a ∈ c.aliases.entries, ∀ d ∈ c.dependencies.entries,
    a.1 ∈ c.program.locations.takeWhile (· ≠ d.1) → _))

variable {c : Linked} {p : String → Bool} {pairs : List (String × Address)}

/-- With room for literals it does not matter that contracts come before aliases. -/
theorem Splits.locations_eq (h : Splits p c (.ofList pairs))
    (hpairs : pairs.map Prod.fst = c.program.locations) (hr : c.Roomy) (every : Bool) :
    locations every c.code (Table.ofList pairs).entries = c.linkedCode every := by
  have hbefore : ∀ {x y : String × Address}, Precedes (Table.ofList pairs).entries x y →
      c.program.Before x.1 y.1 := fun hxy => by
    rw [Program.Before, ← hpairs]
    exact Table.mem_takeWhile_of_precedes (List.Sublist.map Prod.fst hxy)
  have htargets : ∀ {k}, k ∈ (Table.ofList pairs).entries → k ∈ c.targets := by
    intro k hk
    rw [h.targets, List.mem_append, List.mem_filter, List.mem_filter]
    cases p k.1 <;> simp [hk]
  rw [linkedCode, h.targets]
  refine (locations_filter p fun a d had ha hd => ?_).symm
  have hrow : a ∈ c.aliases.entries := by
    rw [h.aliases, List.mem_filter]
    simp [had.mem_left, ha]
  have hrow' : d ∈ c.dependencies.entries.map fun row => (row.1, row.2.target) := by
    rw [h.dependencies, List.mem_filter]
    exact ⟨had.mem_right, hd⟩
  obtain ⟨row, hmem, rfl⟩ := List.mem_map.mp hrow'
  obtain ⟨hapart, hfree, hfront, hback⟩ := hr a hrow row hmem (hbefore had)
  exact ⟨hapart.clear (quotedSpelling_ne_nil _) (quotedSpelling_ne_nil _), hfree,
    fun k hk => hfront k (htargets hk.mem_left) (hbefore hk),
    fun k hk => hback k (htargets hk.mem_left) (hbefore hk)⟩

end Linked

end ContractLinker
