import ContractLinker.Proofs.Session

/-!
# Histories of registrations

A registration appends one contract or leaves the session as it is. `registration_outcome` follows
this through every history of requests: the working set holds what the successful registrations
returned, in their order, under paths of their own, and is closed as soon as a preparation has been
asked for.
-/

namespace ContractLinker

namespace Batch

variable {b : Batch}

/-- Linking keeps the contracts and only fills their links in. -/
theorem map_toContract_of_linkAll {options : Options} {aliases : AliasTable} {ls : List Linked}
    (h : (b.linkAll options aliases).result = .ok ls) :
    ls.map (·.toContract) = b.set.registered := by
  cases hlinked : b.linked with
  | true =>
    cases (linkAll_of_linked hlinked).symm.trans h
    rfl
  | false =>
    rw [linkAll_of_unlinked hlinked, result_linkContracts] at h
    have hall := mapM_eq_ok_iff.mp h
    have hsame : ∀ {c c' : Linked}, (linkLocations options aliases b.set c
        c.program.locations).result = .ok c' → c.toContract = c'.toContract := by
      intro c c' hc
      rw [result_linkLocations] at hc
      obtain ⟨links, -, rfl⟩ := map_eq_ok.mp hc
      simp
    have hmap : List.Forall₂ Eq (b.set.contracts.map (·.toContract)) (ls.map (·.toContract)) := by
      simpa using hall.imp fun _ _ hc => hsame hc
    exact (List.forall₂_eq_eq_eq ▸ hmap : _ = _).symm

theorem prepare_set (b : Batch) (options : Options) (aliases : AliasTable) :
    (b.prepare options aliases).1.set.registered = b.set.registered ∧
      (b.prepare options aliases).1.set.frozen = true := by
  cases h : (b.linkAll options aliases).result with
  | error f => rw [prepare_of_failed_link h]; exact ⟨rfl, rfl⟩
  | ok ls => rw [prepare_of_link h]; exact ⟨map_toContract_of_linkAll h, rfl⟩

end Batch

-- ---------------------------------------------------------------------------
-- Histories
-- ---------------------------------------------------------------------------

namespace Session

open Batch (registration)

/-- What a request to register a contract asks for. -/
inductive Request.Registers (env : Environment) :
    Request → String → String → String → Except ReadFault String → Prop
  | addCode (name path code target : String) :
      Registers env (.addCode name path code target) name path target (.ok code)
  | addSource (name path target : String) :
      Registers env (.addSource name path target) name path target (env.read path)

/-- A request with the environment that it meets. -/
structure Event where
  env : Environment
  request : Request

/-- A contract has what an event registers. -/
def Event.Makes (e : Event) (c : Contract) : Prop :=
  ∃ name path target source, e.request.Registers e.env name path target source ∧
    c.MadeFrom name path target source

def answer (options : Options) (s : Session) (e : Event) : Session × Logged Reply :=
  s.step options e.env.readSource e.request

/-- The session behind a history. -/
def after (options : Options) (s : Session) (history : List Event) : Session :=
  history.foldl (fun s e => (s.answer options e).1) s

def Reply.contract? : Reply → Option Contract
  | .contract c => some c.toContract
  | _ => none

/-- The contract that an event registers. -/
def made? (options : Options) (s : Session) (e : Event) : Option Contract :=
  (s.answer options e).2.result.toOption.bind Reply.contract?

/-- The contracts that a history registers, with their events. -/
def made (options : Options) (s : Session) : List Event → List (Event × Contract)
  | [] => []
  | e :: rest =>
    ((s.made? options e).map (e, ·)).toList ++ (s.answer options e).1.made options rest

variable {options : Options} {env : Environment} {s : Session} {request : Request} {e : Event}
  {name path target : String} {source : Except ReadFault String} {history : List Event}

theorem result_register (s : Session) (added : Logged (Batch × Linked)) :
    (s.register added).2.result = added.result.map fun out => .contract out.2 := by
  unfold register
  cases h : added.result <;> simp [h, Except.bind, Except.map]

theorem register_of_ok {added : Logged (Batch × Linked)} {b : Batch} {c : Linked}
    (h : added.result = .ok (b, c)) : (s.register added).1 = { s with batch := b } := by
  unfold register
  split
  · next hf => exact nomatch h.symm.trans hf
  · next hok => cases h.symm.trans hok; rfl

theorem register_of_error {added : Logged (Batch × Linked)} {f : Failure}
    (h : added.result = .error f) : (s.register added).1 = s := by
  unfold register
  split
  · rfl
  · next hok => exact nomatch h.symm.trans hok

namespace Request.Registers

theorem not_isPreparation (h : request.Registers env name path target source) :
    ¬ request.IsPreparation := by
  cases h <;> rintro ⟨⟩

theorem step_eq (h : request.Registers env name path target source) (options : Options)
    (s : Session) :
    ∃ added : Logged (Batch × Linked),
      added.result = s.batch.registration name path target source ∧
      s.step options env.readSource request = s.register added := by
  cases h with
  | addCode name path code target => exact ⟨_, Batch.result_addCode .., rfl⟩
  | addSource name path target => exact ⟨_, Batch.result_addSource .., rfl⟩

theorem step_eq_error_iff (h : request.Registers env name path target source) {f : Failure} :
    (s.step options env.readSource request).2.result = .error f ↔
      s.batch.set.Refused name path target source f := by
  obtain ⟨added, hadded, hstep⟩ := h.step_eq options s
  rw [hstep, result_register, hadded, map_eq_error, Batch.registration_eq_error_iff]

theorem step_of_error (h : request.Registers env name path target source) {f : Failure}
    (hf : (s.step options env.readSource request).2.result = .error f) :
    (s.step options env.readSource request).1 = s := by
  obtain ⟨added, -, hstep⟩ := h.step_eq options s
  rw [hstep, result_register, map_eq_error] at hf
  rw [hstep, register_of_error hf]

theorem step_of_ok (h : request.Registers env name path target source) {reply : Reply}
    (hr : (s.step options env.readSource request).2.result = .ok reply) :
    ∃ c : Contract, reply = .contract c.unlinked ∧ c.id = s.batch.set.size ∧
      c.MadeFrom name path target source ∧
      (s.step options env.readSource request).1 =
        { s with batch := { s.batch with set := { s.batch.set with
          contracts := s.batch.set.contracts ++ [c.unlinked] } } } := by
  obtain ⟨added, hadded, hstep⟩ := h.step_eq options s
  rw [hstep, result_register] at hr
  obtain ⟨⟨b, l⟩, hok, rfl⟩ := map_eq_ok.mp hr
  obtain ⟨-, -, hl, hid, hmade, hb⟩ := Batch.registration_eq_ok (hadded.symm.trans hok)
  refine ⟨l.toContract, congrArg Reply.contract hl, hid, hmade, ?_⟩
  rw [hstep, register_of_ok hok, hb, ← hl]

end Request.Registers

/-- What an event does to the batch: it adds the contract that it registers, and if it is a
preparation it closes the working set and may link the contracts. -/
structure Kept (options : Options) (s : Session) (e : Event) : Prop where
  makes : ∀ c ∈ s.made? options e, e.Makes c
  registered : (s.answer options e).1.batch.set.registered =
    s.batch.set.registered ++ (s.made? options e).toList
  frozen_iff : (s.answer options e).1.batch.set.frozen = true ↔
    s.batch.set.frozen = true ∨ e.request.IsPreparation
  linked : ¬ e.request.IsPreparation → (s.answer options e).1.batch.linked = s.batch.linked

theorem kept_of_registers (h : e.request.Registers e.env name path target source) :
    Kept options s e := by
  have hnot := h.not_isPreparation
  cases hr : (s.step options e.env.readSource e.request).2.result with
  | error f =>
    have hnone : s.made? options e = none := by rw [made?, answer, hr]; rfl
    have hstate : (s.answer options e).1 = s := h.step_of_error hr
    exact ⟨by simp [hnone], by simp [hnone, hstate], by simp [hstate, hnot], by simp [hstate]⟩
  | ok reply =>
    obtain ⟨c, rfl, -, hmade, hstate⟩ := h.step_of_ok hr
    have hsome : s.made? options e = some c := by rw [made?, answer, hr]; rfl
    refine ⟨?_, ?_, by simp [answer, hstate, hnot], by simp [answer, hstate]⟩
    · simpa [hsome] using ⟨name, path, target, source, h, hmade⟩
    · simp [hsome, answer, hstate, WorkingSet.registered, Contract.unlinked]

theorem kept_of_isPreparation (h : e.request.IsPreparation) : Kept options s e := by
  have hnone : s.made? options e = none := by
    have houtcome := answers options s
    cases h' : e.request with
    | prepare =>
      rw [made?, answer, h', houtcome.prepare]
      cases (s.batch.prepare options s.aliases).2.result <;> rfl
    | plan =>
      rw [made?, answer, h', houtcome.plan]
      cases (s.batch.prepare options s.aliases).2.result <;> rfl
    | _ => rw [h'] at h; cases h
  obtain ⟨hregistered, hfrozen⟩ := s.batch.prepare_set options s.aliases
  have hstate : (s.step options e.env.readSource e.request).1 =
      { s with batch := (s.batch.prepare options s.aliases).1 } := fst_step_of_isPreparation h
  exact ⟨by simp [hnone], by simp [hnone, answer, hstate, hregistered],
    by simp [answer, hstate, hfrozen, h], fun hnot => absurd h hnot⟩

theorem kept (options : Options) (s : Session) (e : Event) : Kept options s e := by
  have hsame : (s.answer options e).1.batch = s.batch → s.made? options e = none →
      ¬ e.request.IsPreparation → Kept options s e := fun hbatch hnone hnot =>
    ⟨by simp [hnone], by simp [hnone, hbatch], by simp [hbatch, hnot], by simp [hbatch]⟩
  obtain ⟨env, request⟩ := e
  cases request with
  | addCode name path code target => exact kept_of_registers (.addCode ..)
  | addSource name path target => exact kept_of_registers (.addSource ..)
  | prepare => exact kept_of_isPreparation .prepare
  | plan => exact kept_of_isPreparation .plan
  | contracts => exact hsame rfl rfl (by rintro ⟨⟩)
  | sort places =>
    refine hsame rfl ?_ (by rintro ⟨⟩)
    simp only [made?, answer, step, Logged.result_bind, Logged.result_ofExcept, Logged.result_pure]
    cases Linked.deploymentOrder (places.filterMap (s.batch.set.contracts[·]?)) <;> rfl
  | setAlias key address => exact hsame rfl rfl (by rintro ⟨⟩)
  | eraseAlias key => exact hsame rfl rfl (by rintro ⟨⟩)

theorem after_append (history more : List Event) (s : Session) :
    s.after options (history ++ more) = (s.after options history).after options more :=
  List.foldl_append

theorem registered_after (history : List Event) (s : Session) :
    (s.after options history).batch.set.registered =
      s.batch.set.registered ++ (s.made options history).map Prod.snd := by
  induction history generalizing s with
  | nil => simp [after, made]
  | cons e rest ih =>
    have hrest := ih (s.answer options e).1
    rw [(kept options s e).registered] at hrest
    refine hrest.trans ?_
    cases hm : s.made? options e <;> simp [made, hm]

theorem makes_of_mem_made {row : Event × Contract} (h : row ∈ s.made options history) :
    row.1.Makes row.2 := by
  induction history generalizing s with
  | nil => cases h
  | cons e rest ih =>
    rcases List.mem_append.mp h with h | h
    · obtain ⟨c, hc, rfl⟩ : ∃ c, s.made? options e = some c ∧ (e, c) = row := by simpa using h
      exact (kept options s e).makes c hc
    · exact ih h

theorem frozen_after (options : Options) (history : List Event) (s : Session) :
    (s.after options history).batch.set.frozen = true ↔
      s.batch.set.frozen = true ∨ ∃ e ∈ history, e.request.IsPreparation := by
  induction history generalizing s with
  | nil => simp [after]
  | cons e rest ih =>
    refine (ih (s.answer options e).1).trans ?_
    simp [(kept options s e).frozen_iff, or_assoc]

theorem steps_after (history : List Event) (s : Session) :
    Relation.ReflTransGen (Steps options) s (s.after options history) := by
  induction history generalizing s with
  | nil => exact .refl
  | cons e rest ih => exact .head ⟨_, _, rfl⟩ (ih _)

theorem reachable_after (options : Options) (aliases : AliasTable) (history : List Event) :
    Reachable options (after options ⟨{}, aliases⟩ history) :=
  ⟨aliases, steps_after history _⟩

/-- What holds of the working set behind a history that made these contracts. -/
structure Records (set : WorkingSet) (history : List Event) (made : List (Event × Contract)) :
    Prop where
  registered : set.registered = made.map Prod.snd
  makes : ∀ row ∈ made, row.1.Makes row.2
  ids : set.registered.map (·.id) = (List.range set.size).map Int.ofNat
  paths : (set.registered.map (·.path)).Nodup
  get?_path : ∀ c ∈ set.contracts, set.get? c.path = some c
  frozen_iff : set.frozen = true ↔ ∃ e ∈ history, e.request.IsPreparation

theorem records_after (options : Options) (aliases : AliasTable) (history : List Event) :
    Records (after options ⟨{}, aliases⟩ history).batch.set history
      (made options ⟨{}, aliases⟩ history) := by
  obtain ⟨cs, hcs⟩ := (reachable_after options aliases history).sound
  have hholds : (after options ⟨{}, aliases⟩ history).batch.set.Holds cs :=
    hcs.elim Batch.Open.holds Batch.Settled.holds
  have hpaths : ((after options ⟨{}, aliases⟩ history).batch.set.registered.map (·.path)).Nodup :=
    hholds.registered ▸ hholds.paths
  refine ⟨registered_after history _, fun _ => makes_of_mem_made, ?_, hpaths,
    fun c => WorkingSet.get?_of_mem hpaths, ?_⟩
  · rw [hholds.registered, hholds.ids, WorkingSet.size, ← hholds.registered,
      WorkingSet.registered, List.length_map]
  · simpa using frozen_after options history ⟨{}, aliases⟩

/-- Histories append to the working set what they register. A single registration is refused for
the first reason that applies, and then it leaves the session as it is; else it appends one
contract. -/
theorem registration_outcome (options : Options) :
    (∀ (aliases : AliasTable) (history more : List Event),
      Records (after options ⟨{}, aliases⟩ history).batch.set history
        (made options ⟨{}, aliases⟩ history) ∧
      (after options ⟨{}, aliases⟩ history).batch.set.registered <+:
        (after options ⟨{}, aliases⟩ (history ++ more)).batch.set.registered) ∧
    ∀ (s : Session) (env : Environment) (request : Request) (name path target : String)
      (source : Except ReadFault String), request.Registers env name path target source →
      (∀ f, ((s.step options env.readSource request).2.result = .error f ↔
          s.batch.set.Refused name path target source f) ∧
        ((s.step options env.readSource request).2.result = .error f →
          (s.step options env.readSource request).1 = s)) ∧
      ∀ reply, (s.step options env.readSource request).2.result = .ok reply →
        ∃ c : Contract, reply = .contract c.unlinked ∧ c.id = s.batch.set.size ∧
          c.MadeFrom name path target source ∧
          (s.step options env.readSource request).1 =
            { s with batch := { s.batch with set := { s.batch.set with
              contracts := s.batch.set.contracts ++ [c.unlinked] } } } := by
  refine ⟨fun aliases history more => ⟨records_after options aliases history, ?_⟩, ?_⟩
  · rw [after_append]
    exact ⟨_, (registered_after more _).symm⟩
  · intro s env request name path target source h
    exact ⟨fun f => ⟨h.step_eq_error_iff, h.step_of_error⟩, fun reply => h.step_of_ok⟩

/-- A path that cleaning makes equal to a known one is refused, though the address is malformed and
the source is missing; a path of its own is not. -/
theorem registration_outcome_known_path : ∃ (s : Session) (env : Environment) (c : Contract),
    env.read "lib/../A.cdc" = .error .missing ∧ Address.ofText? "" = none ∧
    (s.step {} env.readSource (.addSource "B" "lib/../A.cdc" "")).2.result =
      .error (.registeredTwice "A.cdc" "A") ∧
    (s.step {} env.readSource (.addSource "B" "lib/../A.cdc" "")).1 = s ∧
    (s.step {} env.readSource (.addSource "B" "B.cdc" "02")).1.batch.set.registered =
      s.batch.set.registered ++ [c] ∧ c.id = 1 ∧ c.path = "B.cdc" := by
  let env : Environment :=
    { workingDirectory := "/w"
      read := fun path => if path = "B.cdc" then .ok "" else .error .missing }
  let s := after {} ⟨{}, {}⟩ [⟨env, .addCode "A" "./A.cdc" "" "01"⟩]
  have hfrozen : s.batch.set.frozen = false := by decide +kernel
  obtain ⟨owner, howner, hname⟩ : ∃ owner,
      s.batch.set.get? (Path.clean "lib/../A.cdc") = some owner ∧ owner.name = "A" :=
    Option.map_eq_some_iff.mp (by decide +kernel)
  have hclean : Path.clean "lib/../A.cdc" = "A.cdc" := by decide +kernel
  have hregister := (registration_outcome {}).2 s env
  have hrefused := ((hregister _ _ _ _ _ (.addSource "B" "lib/../A.cdc" "")).1 _).1.mpr
    (.registeredTwice hfrozen howner)
  have hstate := ((hregister _ _ _ _ _ (.addSource "B" "lib/../A.cdc" "")).1 _).2 hrefused
  rw [hclean, hname] at hrefused
  obtain ⟨reply, hreply, -⟩ : ∃ reply,
      (s.step {} env.readSource (.addSource "B" "B.cdc" "02")).2.result = .ok reply ∧ () = () :=
    map_eq_ok.mp (by decide +kernel)
  obtain ⟨c, -, hid, hmade, happend⟩ :=
    (hregister _ _ _ _ _ (.addSource "B" "B.cdc" "02")).2 reply hreply
  have hsize : s.batch.set.size = 1 := by decide +kernel
  have hpath : Path.clean "B.cdc" = "B.cdc" := by decide +kernel
  exact ⟨s, env, c, rfl, by decide +kernel, hrefused, hstate,
    by simp [happend, WorkingSet.registered, Contract.unlinked], by simp [hid, hsize],
    hmade.path_eq.trans hpath⟩

end Session

end ContractLinker
