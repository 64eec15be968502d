import ContractLinker.Proofs.Path
import ContractLinker.Proofs.Preparation.Report
import ContractLinker.Proofs.Script
import ContractLinker.Proofs.Session.Registration

/-!
# Linked code and resolved code

A preparation and a script resolve the same code in two ways. `linkedCode_eq_resolved` follows them
through every history of requests: they agree on what is unresolved, and on the code where it leaves
room for literals and the aliases are those that the contracts were linked with.
`linkedCode_ne_resolved` shows that they part where it does not, or where the aliases have changed.
-/

namespace ContractLinker

namespace Contract

variable {options : Options} {set : WorkingSet} {c : Contract} {location : String}
  {given aliases : AliasTable} {every : Bool}

/-- Two alias tables have the same under the keys of a contract's locations. -/
def Alike (options : Options) (given aliases : AliasTable) (c : Contract) : Prop :=
  ∀ l ∈ c.program.locations, given.get? (Path.aliasKey options.extensions l) =
    aliases.get? (Path.aliasKey options.extensions l)

theorem Alike.lookup (h : c.Alike options given aliases) (hl : location ∈ c.program.locations) :
    c.lookup options given set location = c.lookup options aliases set location := by
  rw [Contract.lookup, Contract.lookup, h location hl]

theorem resolved_congr {s t : WorkingSet} (h : s.registered = t.registered) (c : Contract) :
    c.resolved options s given every = c.resolved options t given every := by
  rw [resolved, resolved, WorkingSet.targetTable, WorkingSet.targetTable, h]

end Contract

-- ---------------------------------------------------------------------------
-- Batches
-- ---------------------------------------------------------------------------

namespace Batch

variable {b : Batch} {options : Options} {aliases given : AliasTable} {cs : List Contract}
  {ls : List Linked} {every : Bool}

/-- Resolving the code of a contract gives the linked code, if there is room for literals. -/
theorem Open.resolved_eq (h : b.Open cs) (hs : b.set.Sourced)
    (hls : (b.linkAll options aliases).result = .ok ls) {c : Linked} (hc : c ∈ ls)
    (hr : c.Roomy) (hgiven : c.Alike options given aliases) :
    c.resolved options b.set given every = .ok (c.linkedCode every) := by
  rw [linkAll_of_unlinked h.linked, result_linkContracts, h.contracts] at hls
  obtain ⟨d, hd, hlink⟩ := exists_of_forall₂ (mapM_eq_ok_iff.mp hls) hc
  obtain ⟨k, hk, rfl⟩ := List.mem_map.mp hd
  rw [result_linkLocations] at hlink
  obtain ⟨links, hlinks, rfl⟩ := map_eq_ok.mp hlink
  obtain ⟨hkeys, hall⟩ := pairs_of_mapM_eq_ok hlinks
  have hlocations : (links.map fun link => (link.1, link.2.target)).map Prod.fst =
      (k.unlinked.addLinks links).program.locations := by
    rw [List.map_map, Linked.toContract_addLinks]
    exact hkeys
  have heq := (Contract.splits_addLinks (c := k) hall).locations_eq hlocations hr every
  rw [Linked.toContract_addLinks] at hgiven heq ⊢
  have hlookups : ∀ link ∈ links, k.lookup options given b.set link.1 = .ok link.2 :=
    fun link hl => (hgiven.lookup (hkeys ▸ List.mem_map_of_mem hl)).trans (hall link hl)
  exact (Contract.resolved_of_lookups hs (h.registered ▸ hk) hkeys hlookups).trans
    (congrArg Except.ok heq)

/-- An unresolved import is reported of the code of a contract as it is of the contract. -/
theorem exists_resolved_of_unresolved {u : UnresolvedImport} (hs : b.set.Sourced)
    (hu : (b.prepare options aliases).2.result = .error (.unresolved u)) :
    ∃ c ∈ b.set.contracts, u.importer = c.name ∧ u.filename = some c.path ∧
      ∀ every, c.resolved options b.set aliases every =
        .error (.unresolved { u with importer := c.path }) := by
  have hlookup : Failure.IsLookup (.unresolved u) := trivial
  obtain ⟨-, hlink⟩ := (prepare_eq_error_iff hlookup).mp hu
  rw [result_linkContracts] at hlink
  obtain ⟨front, c, back, he, -, hc⟩ := mapM_eq_error_iff.mp hlink
  have hmem : c ∈ b.set.contracts := by simp [he]
  rw [result_linkLocations, map_eq_error] at hc
  obtain ⟨front', l, back', he', -, hl⟩ := mapM_eq_error_iff.mp hc
  have hlocation : l ∈ c.program.locations := by simp [he']
  refine ⟨c, hmem, ?_⟩
  cases (Contract.lookup_eq_error_iff hlocation).mp (map_eq_error.mp hl) with
  | unresolved =>
    exact ⟨rfl, rfl, fun every =>
      Contract.resolved_of_failed_lookup hs (List.mem_map_of_mem hmem) hc⟩

end Batch

-- ---------------------------------------------------------------------------
-- Sessions
-- ---------------------------------------------------------------------------

namespace Session

variable {options : Options} {s : Session} {e : Event} {history : List Event}

/-- The alias table that stood when a history linked the contracts. -/
def LinkedWith (options : Options) (s : Session) (history : List Event) (aliases : AliasTable) :
    Prop :=
  ∃ before e more, history = before ++ e :: more ∧
    (s.after options before).batch.linked = false ∧
    (s.after options (before ++ [e])).batch.linked = true ∧
    aliases = (s.after options before).aliases

theorem after_concat (history : List Event) (e : Event) (s : Session) :
    s.after options (history ++ [e]) = ((s.after options history).answer options e).1 :=
  after_append history [e] s

theorem exists_linkedWith (hs : s.batch.linked = false)
    (h : (s.after options history).batch.linked = true) :
    ∃ aliases, s.LinkedWith options history aliases := by
  induction history using List.reverseRecOn with
  | nil => exact nomatch hs.symm.trans h
  | append_singleton history e ih =>
    cases hl : (s.after options history).batch.linked with
    | false => exact ⟨_, history, e, [], rfl, hl, h, rfl⟩
    | true =>
      obtain ⟨aliases, before, e', more, rfl, hlinked⟩ := ih hl
      exact ⟨aliases, before, e', more ++ [e], by simp, hlinked⟩

theorem linked_of_preparation (hr : e.request.IsPreparation) {reply : Reply}
    (h : (s.answer options e).2.result = .ok reply) :
    (s.answer options e).1.batch.linked = true := by
  rw [answer, fst_step_of_isPreparation hr]
  cases hlink : (s.batch.linkAll options s.aliases).result with
  | error f =>
    have hf : (s.batch.prepare options s.aliases).2.result = .error f := by
      rw [Batch.result_prepare, hlink]
      rfl
    cases ((step_eq_error_iff hr).mpr hf).symm.trans h
  | ok ls => simp [Batch.prepare_of_link hlink]

theorem linkAll_of_linked_answer (hs : s.batch.linked = false)
    (h : (s.answer options e).1.batch.linked = true) :
    ∃ ls, (s.batch.linkAll options s.aliases).result = .ok ls ∧
      (s.answer options e).1.batch = ⟨⟨ls, true⟩, true⟩ := by
  have hr : e.request.IsPreparation := by
    by_contra hnot
    exact nomatch hs.symm.trans (((kept options s e).linked hnot).symm.trans h)
  rw [answer, fst_step_of_isPreparation hr] at h ⊢
  cases hlink : (s.batch.linkAll options s.aliases).result with
  | error f =>
    rw [Batch.prepare_of_failed_link hlink] at h
    exact nomatch hs.symm.trans h
  | ok ls => exact ⟨ls, rfl, Batch.prepare_of_link hlink⟩

theorem sourced_after (aliases : AliasTable) (history : List Event) :
    (after options ⟨{}, aliases⟩ history).batch.set.Sourced := by
  have h := records_after options aliases history
  have hmade : ∀ c ∈ (after options ⟨{}, aliases⟩ history).batch.set.registered,
      ∃ name path target source, c.MadeFrom name path target source := by
    intro c hc
    rw [h.registered] at hc
    obtain ⟨row, hrow, rfl⟩ := List.mem_map.mp hc
    obtain ⟨name, path, target, source, -, hm⟩ := h.makes row hrow
    exact ⟨name, path, target, source, hm⟩
  refine ⟨h.paths, fun c hc => ?_, fun c hc => ?_, fun c hc => ?_⟩ <;>
    obtain ⟨name, path, target, source, hm⟩ := hmade c hc
  · rw [hm.path_eq, Path.clean_clean]
  · exact Address.bytes_ne_nil hm.ofText?_target
  · exact ⟨path, hm.parse_eq⟩

/-- Once the contracts are linked, resolving the code of one with the aliases of then gives its
linked code, if there is room for literals. -/
theorem LinkedWith.resolved_eq {aliases linked given : AliasTable}
    (h : LinkedWith options ⟨{}, aliases⟩ history linked) {c : Linked}
    (hc : c ∈ (after options ⟨{}, aliases⟩ history).batch.set.contracts) (hr : c.Roomy)
    (hgiven : c.Alike options given linked) (every : Bool) :
    c.resolved options (after options ⟨{}, aliases⟩ history).batch.set given every =
      .ok (c.linkedCode every) := by
  obtain ⟨before, e, more, rfl, hopen, hlinked, rfl⟩ := h
  rw [after_concat] at hlinked
  obtain ⟨ls, hls, hbatch⟩ := linkAll_of_linked_answer hopen hlinked
  obtain ⟨cs, hcs | hcs⟩ := (reachable_after options aliases before).sound
  · have hsettled := hcs.settled hls
    have hlater :
        (after options ⟨{}, aliases⟩ (before ++ e :: more)).batch = ⟨⟨ls, true⟩, true⟩ := by
      rw [List.append_cons, after_append, after_concat,
        steps_settled (hbatch ▸ hsettled) (steps_after more _), hbatch]
    rw [hlater] at hc ⊢
    rw [Contract.resolved_congr (hsettled.holds.registered.trans hcs.registered.symm)]
    exact hcs.resolved_eq (sourced_after aliases before) hls hc hr hgiven
  · exact nomatch hopen.symm.trans hcs.linked

/-- Preparing a batch and resolving its codes as scripts agree. The linked code of a contract is
what resolving its code gives with the aliases that it was linked with, if there is room for
literals; and an unresolved import is reported of the code as it is of the contract. -/
theorem linkedCode_eq_resolved (options : Options) (aliases : AliasTable) (history : List Event)
    (e : Event) (hr : e.request.IsPreparation) :
    let s := after options ⟨{}, aliases⟩ history
    let t := after options ⟨{}, aliases⟩ (history ++ [e])
    (∀ reply, (s.answer options e).2.result = .ok reply →
      ∃ linked, LinkedWith options ⟨{}, aliases⟩ (history ++ [e]) linked ∧
        (s.batch.linked = false → linked = s.aliases) ∧
        ∀ c ∈ t.batch.set.contracts, c.Roomy → ∀ given, c.Alike options given linked →
          ∀ every, c.resolved options t.batch.set given every = .ok (c.linkedCode every)) ∧
    ∀ u, (s.answer options e).2.result = .error (.unresolved u) →
      ∃ c ∈ s.batch.set.contracts, u.importer = c.name ∧ u.filename = some c.path ∧
        ∀ every, c.resolved options s.batch.set s.aliases every =
          .error (.unresolved { u with importer := c.path }) := by
  intro s t
  refine ⟨fun reply hreply => ?_, fun u hu => ?_⟩
  · have hlinked : t.batch.linked = true := by
      rw [show t = (s.answer options e).1 from after_concat history e _]
      exact linked_of_preparation hr hreply
    have hexists : ∃ linked, LinkedWith options ⟨{}, aliases⟩ (history ++ [e]) linked ∧
        (s.batch.linked = false → linked = s.aliases) := by
      cases hs : s.batch.linked with
      | false => exact ⟨_, ⟨history, e, [], rfl, hs, hlinked, rfl⟩, fun _ => rfl⟩
      | true =>
        obtain ⟨linked, hwith⟩ := exists_linkedWith rfl hlinked
        exact ⟨linked, hwith, nofun⟩
    obtain ⟨linked, hwith, hfirst⟩ := hexists
    exact ⟨linked, hwith, hfirst, fun c hc hroomy given hgiven =>
      hwith.resolved_eq hc hroomy hgiven⟩
  · have hu' : (s.batch.prepare options s.aliases).2.result = .error (.unresolved u) :=
      (step_eq_error_iff hr).mp hu
    exact Batch.exists_resolved_of_unresolved (sourced_after aliases history) hu'

/-- An alias may be declared before a contract, and both locations stand in a comment as well.
Without the alias, its location is reported where it is declared. -/
theorem linkedCode_eq_resolved_alias_first :
    (∃ (s : Session) (c : Linked), c ∈ s.batch.set.contracts ∧
      c.code = "import \"lib/X.cdc\" import \"D.cdc\" /* \"D.cdc\" \"lib/X.cdc\" */" ∧
      c.aliases.keys = ["lib/X.cdc"] ∧ c.dependencies.keys = ["D.cdc"] ∧ c.Roomy ∧
      c.resolved {} s.batch.set s.aliases true = .ok "import 0x01 import 0x02 /* 0x02 0x01 */" ∧
      c.resolved {} s.batch.set s.aliases false =
        .ok "import 0x01 import 0x02 /* \"D.cdc\" \"lib/X.cdc\" */") ∧
    ∃ (s : Session) (c : Linked) (u : UnresolvedImport), c ∈ s.batch.set.contracts ∧
      u = ⟨"C", "lib/X.cdc", "lib/X.cdc", some "C.cdc", some ⟨⟨1, 1⟩, ⟨1, 19⟩⟩⟩ ∧
      (s.batch.prepare {} s.aliases).2.result = .error (.unresolved u) ∧
      ∀ every, c.resolved {} s.batch.set s.aliases every =
        .error (.unresolved { u with importer := "C.cdc" }) := by
  let env : Environment := { workingDirectory := "/", read := fun _ => .error .missing }
  let history : List Event := [⟨env, .addCode "D" "D.cdc" "" "02"⟩,
    ⟨env, .addCode "C" "C.cdc"
      "import \"lib/X.cdc\" import \"D.cdc\" /* \"D.cdc\" \"lib/X.cdc\" */" "03"⟩]
  let e : Event := ⟨env, .prepare⟩
  constructor
  · let s := after {} ⟨{}, ⟨[("X", "01")]⟩⟩ history
    let t := after {} ⟨{}, ⟨[("X", "01")]⟩⟩ (history ++ [e])
    obtain ⟨reply, hreply, -⟩ : ∃ reply, (s.answer {} e).2.result = .ok reply ∧ () = () :=
      map_eq_ok.mp (by decide +kernel)
    obtain ⟨linked, -, hlinked, hagree⟩ :=
      (linkedCode_eq_resolved {} ⟨[("X", "01")]⟩ history e .prepare).1 reply hreply
    obtain rfl := hlinked (by decide +kernel)
    obtain ⟨c, hc, hcode, haliases, hdependencies, hroomy, hall, hfirst⟩ :
        ∃ c ∈ t.batch.set.contracts,
          c.code = "import \"lib/X.cdc\" import \"D.cdc\" /* \"D.cdc\" \"lib/X.cdc\" */" ∧
          c.aliases.keys = ["lib/X.cdc"] ∧ c.dependencies.keys = ["D.cdc"] ∧ c.Roomy ∧
          c.linkedCode true = "import 0x01 import 0x02 /* 0x02 0x01 */" ∧
          c.linkedCode false = "import 0x01 import 0x02 /* \"D.cdc\" \"lib/X.cdc\" */" := by
      decide +kernel
    have hresolved := hagree c hc hroomy s.aliases fun _ _ => rfl
    exact ⟨t, c, hc, hcode, haliases, hdependencies, hroomy, hall ▸ hresolved true,
      hfirst ▸ hresolved false⟩
  · let s := after {} ⟨{}, {}⟩ history
    let u : UnresolvedImport :=
      ⟨"C", "lib/X.cdc", "lib/X.cdc", some "C.cdc", some ⟨⟨1, 1⟩, ⟨1, 19⟩⟩⟩
    have hfailed : (s.answer {} e).2.result = .error (.unresolved u) := by decide +kernel
    obtain ⟨c, hc, -, hpath, hresolved⟩ :=
      (linkedCode_eq_resolved {} {} history e .prepare).2 u hfailed
    rw [← Option.some.inj hpath] at hresolved
    exact ⟨s, c, u, hc, rfl, (step_eq_error_iff .prepare).mp hfailed, hresolved⟩

/-- The session behind some requests and a preparation, with its reply. -/
def prepared (requests : List Request) : Session × Logged Reply :=
  let env : Environment := { workingDirectory := "/", read := fun _ => .error .missing }
  (after {} {} (requests.map fun request => ⟨env, request⟩)).answer {} ⟨env, .prepare⟩

/-- A preparation succeeds, but it leaves a contract whose linked code is not what resolving its
code gives. -/
def Differs (requests : List Request) (every : Bool) (linked resolved : String) : Prop :=
  (prepared requests).2.result.toOption.isSome = true ∧ linked ≠ resolved ∧
    ∃ c ∈ (prepared requests).1.batch.set.contracts, c.linkedCode every = linked ∧
      c.resolved {} (prepared requests).1.batch.set (prepared requests).1.aliases every =
        .ok resolved

instance decidableDiffers (requests : List Request) (every : Bool) (linked resolved : String) :
    Decidable (Differs requests every linked resolved) :=
  inferInstanceAs (Decidable (_ ∧ _ ∧
    ∃ c ∈ (prepared requests).1.batch.set.contracts, c.linkedCode every = linked ∧ _))

/-- Without room for literals they do not agree, nor with other aliases. -/
theorem linkedCode_ne_resolved :
    -- Two locations share a quote, where all occurrences are replaced and where the first are.
    Differs [.setAlias "A" "01", .addCode "B" "B" "" "02",
        .addCode "C" "C" "import \"A\" import \"B\" \"A\"B\"C\"" "03"] true
      "import 0x01 import 0x02 \"A0x02C\"" "import 0x01 import 0x02 0x01B\"C\"" ∧
    Differs [.setAlias "A" "01", .addCode "B" "B" "" "02",
        .addCode "C" "C" "\"A\"B\"C\" import \"A\" import \"B\"" "03"] false
      "\"A0x02C\" import 0x01 import \"B\"" "0x01B\"C\" import \"A\" import 0x02" ∧
    -- The literal of a contract stands in the location of an alias.
    Differs [.setAlias "s0x02t" "01", .addCode "D" "D" "" "02",
        .addCode "C" "C" "import \"s0x02t\" import \"D\" \"s\"D\"t\"" "03"] true
      "import 0x01 import 0x02 0x01" "import 0x01 import 0x02 \"s0x02t\"" ∧
    -- The literal of an alias stands in the location of a contract.
    Differs [.setAlias "A" "01", .addCode "E" "s0x01t" "" "02",
        .addCode "C" "C" "import \"A\" import \"s0x01t\" \"s\"A\"t\"" "03"] true
      "import 0x01 import 0x02 \"s0x01t\"" "import 0x01 import 0x02 0x02" ∧
    -- The literal of an earlier contract stands in the location of an alias.
    Differs [.addCode "D" "D" "" "01", .setAlias "s0x01t" "02", .addCode "E" "E" "" "03",
        .addCode "C" "C" "import \"D\" import \"s0x01t\" import \"E\" \"s\"D\"t\"E\"u\"" "04"]
      true
      "import 0x01 import 0x02 import 0x03 \"s0x01t0x03u\""
      "import 0x01 import 0x02 import 0x03 0x02E\"u\"" ∧
    -- The alias is changed after the contracts have been linked with it.
    Differs [.setAlias "A" "01", .addCode "C" "C" "import \"A\"" "03", .prepare,
        .setAlias "A" "02"] true "import 0x01" "import 0x02" := by
  refine ⟨?_, ?_, ?_, ?_, ?_, ?_⟩
  all_goals decide +kernel

end Session

end ContractLinker
