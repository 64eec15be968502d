import ContractLinker.Proofs.Preparation
import ContractLinker.Session
import Mathlib.Data.List.Dedup

/-!
# Runs of a session

What holds in every state that requests lead to: a batch is `Open` until its imports have been
linked, and `Settled` from then on. `linked_once` says that nothing changes a settled batch and
that all its preparations end alike; `failed_lookup_leaves_no_trace` says that a preparation that
does not get so far leaves nothing behind that a later one could notice.
-/

namespace ContractLinker

open Relation (ReflTransGen)

-- ---------------------------------------------------------------------------
-- Failures of an order
-- ---------------------------------------------------------------------------

namespace Linked

theorem eq_of_withId_eq_error {contracts : List Linked} {id : Int} {f : Failure}
    (h : withId contracts id = .error f) : f = .unknownContract id := by
  unfold withId at h
  split at h
  · cases h
  · exact (Except.error.inj h).symm

/-- A failed order is no failed lookup. -/
theorem not_isLookup_of_deploymentOrder {contracts : List Linked} {f : Failure}
    (h : deploymentOrder contracts = .error f) : ¬ f.IsLookup := by
  have hunknown : ∀ {ids : List Int}, ids.mapM (withId contracts) = .error f → ¬ f.IsLookup := by
    intro ids hids
    obtain ⟨_, n, _, -, -, hn⟩ := mapM_eq_error_iff.mp hids
    rw [eq_of_withId_eq_error hn]
    exact id
  unfold deploymentOrder at h
  split at h
  · exact hunknown h
  · rcases bind_eq_error.mp h with hids | ⟨members, -, hcyclic⟩
    · exact hunknown hids
    · cases hcyclic
      exact id

end Linked

-- ---------------------------------------------------------------------------
-- What a preparation leaves
-- ---------------------------------------------------------------------------

namespace Batch

variable {b b' : Batch} {options : Options} {aliases : AliasTable} {cs : List Contract}
  {ls : List Linked} {f : Failure}

/-- What holds of a batch once its imports have been linked. -/
structure Settled (b : Batch) (cs : List Contract) : Prop where
  linked : b.linked = true
  frozen : b.set.frozen = true
  contracts : List.Forall₂ (LinkedFrom b.set) cs b.set.contracts
  holds : b.set.Holds cs

/-- Linking does not ask whether the working set is frozen. -/
theorem linkLocations_freeze (set : WorkingSet) (c : Linked) (locations : List String) :
    linkLocations options aliases set.freeze c locations =
      linkLocations options aliases set c locations := by
  induction locations generalizing c with
  | nil => rfl
  | cons location rest ih => simp only [linkLocations, ih]; rfl

theorem linkContracts_freeze (set : WorkingSet) (contracts : List Linked) :
    linkContracts options aliases set.freeze contracts =
      linkContracts options aliases set contracts := by
  induction contracts with
  | nil => rfl
  | cons c rest ih => simp only [linkContracts, linkLocations_freeze, ih]

theorem linkAll_freeze (b : Batch) :
    ({ b with set := b.set.freeze } : Batch).linkAll options aliases =
      b.linkAll options aliases := by
  unfold linkAll
  rw [linkContracts_freeze]
  rfl

theorem prepare_freeze (b : Batch) :
    ({ b with set := b.set.freeze } : Batch).prepare options aliases =
      b.prepare options aliases := by
  unfold prepare
  rw [linkAll_freeze]
  rfl

theorem prepare_of_failed_link (h : (b.linkAll options aliases).result = .error f) :
    (b.prepare options aliases).1 = { b with set := b.set.freeze } := by
  unfold prepare
  dsimp only
  split
  · rfl
  · next ls hls => exact nomatch h.symm.trans hls

theorem prepare_of_link (h : (b.linkAll options aliases).result = .ok ls) :
    (b.prepare options aliases).1 = ⟨⟨ls, true⟩, true⟩ := by
  unfold prepare
  dsimp only
  split
  · next f hf => exact nomatch h.symm.trans hf
  · next ls' hls => cases h.symm.trans hls; rfl

/-- A preparation fails with a lookup exactly if linking fails, which takes a batch that has not
been linked. -/
theorem linkAll_of_failed_lookup (h : (b.prepare options aliases).2.result = .error f)
    (hf : f.IsLookup) : (b.linkAll options aliases).result = .error f ∧ b.linked = false := by
  rw [result_prepare] at h
  cases hlink : (b.linkAll options aliases).result with
  | error f' =>
    rw [hlink] at h
    cases h
    refine ⟨rfl, Bool.eq_false_iff.mpr fun hl => ?_⟩
    exact nomatch (linkAll_of_linked hl).symm.trans hlink
  | ok ls =>
    rw [hlink] at h
    exact absurd hf (Linked.not_isLookup_of_deploymentOrder h)

theorem Open.freeze (h : b.Open cs) : ({ b with set := b.set.freeze } : Batch).Open cs :=
  ⟨h.linked, h.contracts, h.ids, h.paths⟩

/-- Linking settles a batch. -/
theorem Open.settled (h : b.Open cs) (hls : (b.linkAll options aliases).result = .ok ls) :
    (⟨⟨ls, true⟩, true⟩ : Batch).Settled cs := by
  rcases linkAll_outcome options aliases h with ⟨-, ls', hls', hlinked⟩ | ⟨-, f, hf, -⟩
  · cases hls.symm.trans hls'
    have hreg : (⟨ls, true⟩ : WorkingSet).registered = cs := map_toContract_of_forall₂ hlinked
    exact ⟨rfl, rfl, hlinked.imp fun _ _ hl => hl.congr (h.registered.trans hreg.symm),
      hreg, h.ids, h.paths⟩
  · exact nomatch hls.symm.trans hf

/-- A settled batch stays as it is, and each of its preparations orders the same contracts. -/
theorem Settled.prepare (h : b.Settled cs) :
    (b.prepare options aliases).1 = b ∧
      (b.prepare options aliases).2.result = Linked.deploymentOrder b.set.contracts := by
  have hlink : (b.linkAll options aliases).result = .ok b.set.contracts :=
    linkAll_of_linked h.linked
  refine ⟨?_, by rw [result_prepare, hlink]; rfl⟩
  rw [prepare_of_link hlink]
  obtain ⟨⟨contracts, frozen⟩, linked⟩ := b
  cases h.linked
  cases h.frozen
  rfl

theorem Settled.addCode_ne_ok {c : Linked} {name path code target : String} (h : b.Settled cs) :
    (b.addCode name path code target).result ≠ .ok (b', c) := fun hc => by
  rw [result_addCode] at hc
  obtain ⟨hfrozen, -⟩ := registration_eq_ok hc
  exact nomatch h.frozen.symm.trans hfrozen

/-- A batch whose contracts are either unlinked, all of them, or settled. -/
def Sound (b : Batch) : Prop := ∃ cs, b.Open cs ∨ b.Settled cs

theorem Sound.addCode {c : Linked} {name path code target : String} (h : b.Sound)
    (hc : (b.addCode name path code target).result = .ok (b', c)) : b'.Sound := by
  obtain ⟨cs, h | h⟩ := h
  · exact ⟨_, .inl (h.addCode hc)⟩
  · exact absurd hc h.addCode_ne_ok

theorem Sound.prepare (h : b.Sound) : (b.prepare options aliases).1.Sound := by
  obtain ⟨cs, h | h⟩ := h
  · cases hlink : (b.linkAll options aliases).result with
    | error f => exact ⟨cs, .inl (prepare_of_failed_link hlink ▸ h.freeze)⟩
    | ok ls => exact ⟨cs, .inr (prepare_of_link hlink ▸ h.settled hlink)⟩
  · rw [h.prepare.1]
    exact ⟨cs, .inr h⟩

/-- A preparation that does not fail with a lookup settles the batch, and later ones do as it
did. -/
theorem Sound.prepare_settled (h : b.Sound)
    (hpast : ∀ f, (b.prepare options aliases).2.result = .error f → ¬ f.IsLookup) :
    ∃ cs, (b.prepare options aliases).1.Settled cs ∧
      (b.prepare options aliases).2.result =
        Linked.deploymentOrder (b.prepare options aliases).1.set.contracts := by
  obtain ⟨cs, h | h⟩ := h
  · rcases linkAll_outcome options aliases h with ⟨-, ls, hls, -⟩ | ⟨-, f, hf, hlookup⟩
    · refine ⟨cs, prepare_of_link hls ▸ h.settled hls, ?_⟩
      rw [prepare_of_link hls, result_prepare, hls]
      rfl
    · refine absurd hlookup (hpast f ?_)
      rw [result_prepare, hf]
      rfl
  · exact ⟨cs, h.prepare.1.symm ▸ h, by rw [h.prepare.1, h.prepare.2]⟩

/-- The locations of a settled contract are shared out between its dependencies and its
aliases. -/
theorem LinkedFrom.keys_perm {set : WorkingSet} {c : Contract} {l : Linked}
    (h : LinkedFrom set c l) :
    (l.dependencies.keys ++ l.aliases.keys).Perm l.program.locations.dedup := by
  have hkeys : ∀ {location}, location ∈ l.dependencies.keys ↔
      location ∈ c.program.locations ∧
        set.contractAt? (Path.locate c.path location) ≠ none := by
    intro location
    rw [← Table.contains_iff_mem_keys, Table.contains, h.get?_dependencies]
    split
    · next hl => simp [hl, Option.isSome_iff_ne_none]
    · next hl => simp [hl]
  have hdisjoint : l.dependencies.keys.Disjoint l.aliases.keys := fun location hd ha =>
    (hkeys.mp hd).2 ((h.mem_aliases location).mp ha).2
  refine (List.perm_ext_iff_of_nodup (h.nodup_keys.append h.nodup_aliases hdisjoint)
    (List.nodup_dedup _)).mpr fun location => ?_
  rw [List.mem_append, List.mem_dedup, hkeys, h.mem_aliases, h.toContract]
  tauto

/-- A dependency is the contract registered at the path of its location. -/
theorem Settled.dependency (h : b.Settled cs) {l : Linked} (hl : l ∈ b.set.contracts)
    {location : String} {d : Contract} (hd : (location, d) ∈ l.dependencies.entries) :
    d ∈ b.set.registered ∧ d.path = Path.locate l.path location := by
  obtain ⟨-, hat⟩ := (linkedFrom_of_mem h.contracts hl).1.mem_dependencies_iff.mp hd
  exact WorkingSet.contractAt?_eq_some hat

end Batch

-- ---------------------------------------------------------------------------
-- Requests
-- ---------------------------------------------------------------------------

namespace Session

variable {options : Options} {read : String → Except Failure String} {request : Request}
  {s t : Session} {cs : List Contract} {f : Failure}

/-- Some request takes a session from one state to another. What can be read may change from
request to request. -/
def Steps (options : Options) (s t : Session) : Prop :=
  ∃ read request, (s.step options read request).1 = t

/-- A state that requests lead to from an empty batch and some alias table. -/
def Reachable (options : Options) (s : Session) : Prop :=
  ∃ aliases, ReflTransGen (Steps options) ⟨{}, aliases⟩ s

/-- The requests that link and order the contracts. -/
inductive Request.IsPreparation : Request → Prop
  | prepare : IsPreparation .prepare
  | plan : IsPreparation .plan

/-- What preparations reply, if the contracts are ordered with some outcome. -/
structure Answers (options : Options) (s : Session) (outcome : Except Failure (List Linked)) :
    Prop where
  prepare : ∀ read, (s.step options read .prepare).2.result = outcome.map .order
  plan : ∀ read, (s.step options read .plan).2.result =
    outcome.map fun ordered => .plan (Batch.steps options ordered)

theorem answers (options : Options) (s : Session) :
    s.Answers options (s.batch.prepare options s.aliases).2.result := by
  constructor
  · intro read
    simp only [step, Logged.result_bind, Logged.result_pure]
    cases (s.batch.prepare options s.aliases).2.result <;> rfl
  · intro read
    simp only [step, Batch.plan, Logged.result_bind, Logged.result_pure]
    cases (s.batch.prepare options s.aliases).2.result <;> rfl

theorem fst_step_of_isPreparation (hr : request.IsPreparation) :
    (s.step options read request).1 =
      { s with batch := (s.batch.prepare options s.aliases).1 } := by
  cases hr <;> rfl

theorem step_eq_error_iff (hr : request.IsPreparation) :
    (s.step options read request).2.result = .error f ↔
      (s.batch.prepare options s.aliases).2.result = .error f := by
  cases hr with
  | prepare => rw [(answers options s).prepare, map_eq_error]
  | plan => rw [(answers options s).plan, map_eq_error]

/-- A registration succeeds and replaces the batch, or it leaves the session as it is. -/
theorem register_cases (s : Session) (added : Logged (Batch × Linked)) :
    (s.register added).1 = s ∨
      ∃ b c, added.result = .ok (b, c) ∧ (s.register added).1 = { s with batch := b } := by
  unfold register
  split
  · exact .inl rfl
  · next b c h => exact .inr ⟨b, c, h, rfl⟩

theorem sound_register (h : s.batch.Sound) {added : Logged (Batch × Linked)}
    (hadded : ∀ {b c}, added.result = .ok (b, c) → b.Sound) :
    (s.register added).1.batch.Sound := by
  rcases register_cases s added with he | ⟨b, c, hok, he⟩
  · rw [he]
    exact h
  · rw [he]
    exact hadded hok

theorem sound_step (h : s.batch.Sound) : (s.step options read request).1.batch.Sound := by
  cases request with
  | addCode name path code target => exact sound_register h fun hc => h.addCode hc
  | addSource name path target =>
    refine sound_register h fun hc => ?_
    obtain ⟨code, -, hc⟩ := Batch.addSource_eq_ok hc
    exact h.addCode hc
  | prepare => exact h.prepare
  | plan => exact h.prepare
  | _ => exact h

theorem Reachable.sound (h : Reachable options s) : s.batch.Sound := by
  obtain ⟨aliases, h⟩ := h
  induction h with
  | refl => exact ⟨[], .inl Batch.Registered.empty.isOpen⟩
  | tail _ hstep ih =>
    obtain ⟨read, request, rfl⟩ := hstep
    exact sound_step ih

/-- No request changes a settled batch. -/
theorem step_settled (h : s.batch.Settled cs) :
    (s.step options read request).1.batch = s.batch := by
  have hregister : ∀ added : Logged (Batch × Linked), (∀ r, added.result ≠ .ok r) →
      (s.register added).1.batch = s.batch := fun added hne => by
    rcases register_cases s added with he | ⟨b, c, hok, -⟩
    · rw [he]
    · exact absurd hok (hne (b, c))
  cases request with
  | addCode name path code target => exact hregister _ fun _ => h.addCode_ne_ok
  | addSource name path target =>
    refine hregister _ fun _ hc => ?_
    obtain ⟨code, -, hc⟩ := Batch.addSource_eq_ok hc
    exact h.addCode_ne_ok hc
  | prepare => exact h.prepare.1
  | plan => exact h.prepare.1
  | _ => rfl

theorem steps_settled (h : s.batch.Settled cs) (hst : ReflTransGen (Steps options) s t) :
    t.batch = s.batch := by
  induction hst with
  | refl => rfl
  | tail _ hstep ih =>
    obtain ⟨read, request, rfl⟩ := hstep
    exact (step_settled (ih.symm ▸ h)).trans ih

-- ---------------------------------------------------------------------------
-- Linking happens once
-- ---------------------------------------------------------------------------

/-- Once a preparation has got past its lookups, no request changes the batch: the locations of
each contract are shared out between its dependencies, which are the contracts at their paths, and
its aliases; and every later preparation replies what the first one did. -/
theorem linked_once (h : Reachable options s) (hr : request.IsPreparation)
    (hpast : (∃ reply, (s.step options read request).2.result = .ok reply) ∨
      ∃ names, (s.step options read request).2.result = .error (.cyclic names))
    (hst : ReflTransGen (Steps options) (s.step options read request).1 t) :
    t.batch = (s.step options read request).1.batch ∧
    (∀ c ∈ t.batch.set.contracts,
      (c.dependencies.keys ++ c.aliases.keys).Perm c.program.locations.dedup ∧
      ∀ location d, (location, d) ∈ c.dependencies.entries →
        d ∈ t.batch.set.registered ∧ d.path = Path.locate c.path location) ∧
    ∃ outcome, s.Answers options outcome ∧ t.Answers options outcome := by
  have hnotLookup : ∀ f, (s.batch.prepare options s.aliases).2.result = .error f →
      ¬ f.IsLookup := by
    intro f hf
    have hstep : (s.step options read request).2.result = .error f := (step_eq_error_iff hr).mpr hf
    rcases hpast with ⟨reply, hok⟩ | ⟨names, hcyclic⟩
    · exact nomatch hok.symm.trans hstep
    · cases hcyclic.symm.trans hstep
      exact id
  obtain ⟨cs, hsettled, houtcome⟩ := h.sound.prepare_settled hnotLookup
  have hbatch : (s.step options read request).1.batch = (s.batch.prepare options s.aliases).1 := by
    rw [fst_step_of_isPreparation hr]
  have ht : t.batch = (s.batch.prepare options s.aliases).1 :=
    (steps_settled (hbatch.symm ▸ hsettled) hst).trans hbatch
  refine ⟨ht.trans hbatch.symm, fun c hc => ?_, _, answers options s, ?_⟩
  · rw [ht] at hc ⊢
    exact ⟨(Batch.linkedFrom_of_mem hsettled.contracts hc).1.keys_perm,
      fun location d hd => hsettled.dependency hc hd⟩
  · have hsame : (t.batch.prepare options t.aliases).2.result =
        (s.batch.prepare options s.aliases).2.result := by
      rw [ht, hsettled.prepare.2, houtcome]
    exact hsame ▸ answers options t

/-- A contract with an import of each kind stays linked when the alias is taken back, and no
contract can join it. -/
theorem linked_once_alias_erased :
    ∃ s t : Session, ∃ read, Reachable {} s ∧
      (∃ reply, (s.step {} read .prepare).2.result = .ok reply) ∧
      ReflTransGen (Steps {}) (s.step {} read .prepare).1 t ∧
      s.aliases.get? "X" = some "03" ∧ t.aliases.get? "X" = none ∧
      t.batch.set.contracts.length = 2 ∧ t.batch = (s.step {} read .prepare).1.batch ∧
      ∃ outcome, s.Answers {} outcome ∧ t.Answers {} outcome := by
  let read : String → Except Failure String := fun path => .error (.unreadable path "missing")
  let s₀ : Session := { aliases := ⟨[("X", "03")]⟩ }
  let s₁ := (s₀.step {} read (.addCode "A" "A.cdc" "import \"./B.cdc\" import \"X.cdc\"" "01")).1
  let s := (s₁.step {} read (.addCode "B" "B.cdc" "" "02")).1
  let t₁ := ((s.step {} read .prepare).1.step {} read (.eraseAlias "X")).1
  let t := (t₁.step {} read (.addCode "C" "C.cdc" "" "04")).1
  have hs : Reachable {} s := ⟨_, .tail (.single ⟨read, _, rfl⟩) ⟨read, _, rfl⟩⟩
  have hst : ReflTransGen (Steps {}) (s.step {} read .prepare).1 t :=
    .tail (.single ⟨read, _, rfl⟩) ⟨read, _, rfl⟩
  have hok : ∃ reply, (s.step {} read .prepare).2.result = .ok reply := by
    have hsome : (s.step {} read .prepare).2.result.toOption.isSome := by decide +kernel
    cases h : (s.step {} read .prepare).2.result with
    | ok reply => exact ⟨reply, rfl⟩
    | error f => rw [h] at hsome; cases hsome
  obtain ⟨hbatch, -, hanswers⟩ := linked_once hs .prepare (.inl hok) hst
  exact ⟨s, t, read, hs, hok, hst, by decide +kernel, by decide +kernel, by decide +kernel, hbatch,
    hanswers⟩

-- ---------------------------------------------------------------------------
-- Failed lookups
-- ---------------------------------------------------------------------------

/-- A preparation that fails with a lookup freezes the working set and changes nothing else. With
whatever aliases the next preparation is asked for, it and all requests after it run as if it had
been the first. -/
theorem failed_lookup_leaves_no_trace (hr : request.IsPreparation)
    (h : (s.step options read request).2.result = .error f) (hf : f.IsLookup) :
    s.batch.linked = false ∧
    (s.step options read request).1 =
      { s with batch := { s.batch with set := { s.batch.set with frozen := true } } } ∧
    ∀ (aliases : AliasTable) (again : Request) (rest : List Request), again.IsPreparation →
      run options read { (s.step options read request).1 with aliases } (again :: rest) =
        run options read { s with aliases } (again :: rest) := by
  obtain ⟨hlink, hlinked⟩ := Batch.linkAll_of_failed_lookup ((step_eq_error_iff hr).mp h) hf
  have hstate : (s.step options read request).1 =
      { s with batch := { s.batch with set := s.batch.set.freeze } } := by
    rw [fst_step_of_isPreparation hr, Batch.prepare_of_failed_link hlink]
  refine ⟨hlinked, hstate, fun aliases again rest hagain => ?_⟩
  have hstep : ({ (s.step options read request).1 with aliases } : Session).step options read
      again = ({ s with aliases } : Session).step options read again := by
    rw [hstate]
    cases hagain with
    | prepare => simp only [step, Batch.prepare_freeze]
    | plan => simp only [step, Batch.plan, Batch.prepare_freeze]
  rw [run, hstep, ← run]

/-- With the alias that was missing, a contract is linked as if it had never failed. -/
theorem failed_lookup_leaves_no_trace_alias_added :
    ∃ s : Session, ∃ read u, (s.step {} read .prepare).2.result = .error (.unresolved u) ∧
      (s.step {} read .prepare).1.batch.set.frozen = true ∧
      ∀ aliases : AliasTable, ∀ rest,
        run {} read { (s.step {} read .prepare).1 with aliases } (.plan :: rest) =
          run {} read { s with aliases } (.plan :: rest) := by
  let read : String → Except Failure String := fun path => .error (.unreadable path "missing")
  let s := (({} : Session).step {} read (.addCode "A" "A.cdc" "import \"lib/X.cdc\"" "01")).1
  let u : UnresolvedImport :=
    ⟨"A", "lib/X.cdc", "lib/X.cdc", some "A.cdc", some ⟨⟨1, 1⟩, ⟨1, 19⟩⟩⟩
  have hfailed : (s.step {} read .prepare).2.result = .error (.unresolved u) := by decide +kernel
  obtain ⟨-, hstate, hagain⟩ := failed_lookup_leaves_no_trace .prepare hfailed trivial
  exact ⟨s, read, u, hfailed, by rw [hstate], fun aliases rest => hagain aliases .plan rest .plan⟩

end Session

end ContractLinker
