import ContractLinker.Command.Execution
import ContractLinker.Proofs.Preparation.Renumbering
import ContractLinker.Proofs.Token.Sequence

/-!
# How runs end

`run_ends`: a run does all its work, is stopped by a file or directory that the tree refuses, or
reports a failure and has then neither printed nor written anything. `Accountable` failures are
those that the input is to blame for; `Logged.Accountable` follows them through the work of each
command.
-/

namespace ContractLinker

-- ---------------------------------------------------------------------------
-- Accountable failures
-- ---------------------------------------------------------------------------

/-- The failures that a run may end in. No contract is missing, a cycle has contracts on it, and
no address is missed in a number. -/
def Failure.Accountable : Failure → Prop
  | .unknownContract _ => False
  | .cyclic names => ∃ name rest, names = name :: rest ++ [name]
  | .grammar _ fault => fault.cause = .locationExpected → fault.token.kind ≠ .hexadecimal
  | _ => True

theorem Failure.Accountable.exists_diagnostic {f : Failure} (h : f.Accountable) :
    ∃ d, Diagnostic.ofFailure? f = some d := by
  cases f with
  | unknownContract id => exact h.elim
  | _ => exact ⟨_, rfl⟩

theorem Failure.IsLookup.accountable {f : Failure} (h : f.IsLookup) : f.Accountable := by
  cases f <;> trivial

-- ---------------------------------------------------------------------------
-- Reading sources
-- ---------------------------------------------------------------------------

namespace Import

variable {state : State} {t ending : Token} {ts : List Token} {fault : Fault}

theorem stepBetween_fault {brackets : List Token} (h : stepBetween brackets t = .error fault) :
    fault.cause ≠ .locationExpected := by
  unfold stepBetween at h
  split at h
  · cases h
  · cases h
  · split at h
    · cases h
      exact Cause.noConfusion
    · split at h
      · cases h
      · cases h
        exact Cause.noConfusion
  · cases h

theorem stepLocation_fault {start : Token} {names : List String}
    (h : stepLocation start names t = .error fault) :
    fault.token = t ∧ locationOf? t = none := by
  unfold stepLocation at h
  split at h
  · cases h
  · next hnone =>
    cases h
    exact ⟨rfl, hnone⟩

/-- A token that is refused where a location is expected is none. -/
theorem step_fault (h : step state t = .error fault) (hc : fault.cause = .locationExpected) :
    fault.token = t ∧ locationOf? t = none := by
  cases state with
  | between brackets => exact absurd hc (stepBetween_fault (map_eq_error.mp h))
  | keyword start =>
    rw [step] at h
    split at h
    · cases h
    · exact stepLocation_fault h
  | name start first =>
    rw [step] at h
    split at h
    · cases h
    · split at h
      · cases h
      · split at h
        · cases h
          cases hc
        · exact absurd hc (stepBetween_fault (map_eq_error.mp h))
  | comma start names =>
    rw [step] at h
    split at h
    · cases h
    · cases h
      cases hc
  | names start names =>
    rw [step] at h
    split at h
    · cases h
    · split at h
      · cases h
      · cases h
        cases hc
  | source start names => exact stepLocation_fault h

theorem close_fault (h : close ending state = .error fault) (hc : fault.cause = .locationExpected) :
    fault.token = ending := by
  unfold close at h
  split at h <;> cases h
  all_goals first | rfl | cases hc

theorem read_fault (h : read ending state ts = .error fault)
    (hc : fault.cause = .locationExpected) :
    fault.token = ending ∨ fault.token ∈ ts ∧ locationOf? fault.token = none := by
  induction ts generalizing state with
  | nil => exact .inl (close_fault (map_eq_error.mp h) hc)
  | cons t ts ih =>
    rw [read] at h
    split at h
    · next hstep =>
      cases h
      obtain ⟨htoken, hnone⟩ := step_fault hstep hc
      exact .inr ⟨htoken ▸ List.mem_cons_self, htoken ▸ hnone⟩
    · rcases ih (map_eq_error.mp h) with hend | ⟨hmem, hnone⟩
      · exact .inl hend
      · exact .inr ⟨List.mem_cons_of_mem t hmem, hnone⟩

end Import

/-- A number that is a token is never refused as a location. -/
theorem Program.accountable_of_parse {filename source : String} {f : Failure}
    (h : Program.parse filename source = .error f) : f.Accountable := by
  rcases Program.parse_eq_error_iff.mp h with ⟨fault, -, rfl⟩ | ⟨seq, fault, hseq, hfault, rfl⟩
  · trivial
  · intro hc hkind
    rcases Import.read_fault (map_eq_error.mp hfault) hc with hend | ⟨hmem, hnone⟩
    · rw [hend] at hkind
      cases hkind
    · obtain ⟨a, ha⟩ := Token.Sequence.exists_address hseq hmem hkind
      rw [Import.locationOf?, hkind] at hnone
      simp [ha] at hnone

theorem WorkingSet.Refused.accountable {set : WorkingSet} {name path target : String}
    {source : Except ReadFault String} {f : Failure} (h : set.Refused name path target source f) :
    f.Accountable := by
  cases h with
  | grammar _ _ _ _ hseq hgrammar =>
    exact Program.accountable_of_parse (Program.parse_eq_error_iff.mpr
      (.inr ⟨_, _, hseq, hgrammar, rfl⟩))
  | _ => trivial

-- ---------------------------------------------------------------------------
-- The work of a command
-- ---------------------------------------------------------------------------

namespace Logged

/-- Work whose failures are all accountable. -/
def Accountable {α : Type} (x : Logged α) : Prop := ∀ f, x.result = .error f → f.Accountable

variable {α β : Type} {x : Logged α}

theorem accountable_of_ok {a : α} (h : x.result = .ok a) : x.Accountable := fun _ hf =>
  nomatch h.symm.trans hf

theorem Accountable.bind {g : α → Logged β} (hx : x.Accountable)
    (hg : ∀ a, x.result = .ok a → (g a).Accountable) : (x >>= g).Accountable := by
  intro f hf
  rw [result_bind] at hf
  rcases bind_eq_error.mp hf with h | ⟨a, ha, h⟩
  · exact hx f h
  · exact hg a ha f h

end Logged

namespace Command

open Logged (accountable_of_ok)

variable {env : Environment} {options : Options} {f : Failure}

theorem accountable_of_readSource {path : String} (h : env.readSource path = .error f) :
    f.Accountable := by
  unfold Environment.readSource at h
  split at h
  · cases h
  · cases h
    trivial

theorem accountable_of_pairsOf {entries : List (List Char)} (h : pairsOf entries = .error f) :
    f.Accountable := by
  induction entries with
  | nil => cases h
  | cons entry rest ih =>
    rw [pairsOf] at h
    split at h
    · exact ih (map_eq_error.mp h)
    · cases h
      trivial

theorem accountable_aliasTable (entries : Option String) (pairs : List (String × String)) :
    (aliasTable entries pairs).Accountable :=
  .bind (fun _ => accountable_of_pairsOf) fun _ _ => accountable_of_ok rfl

theorem accountable_register (b : Batch) (contracts : List ContractArgument) :
    (register env b contracts).Accountable := by
  induction contracts generalizing b with
  | nil => exact accountable_of_ok rfl
  | cons c rest ih =>
    refine .bind (fun f hf => ?_) fun added _ => ih added.1
    rw [Batch.result_addSource] at hf
    exact (Batch.registration_eq_error_iff.mp hf).accountable

/-- The contracts of a command line are registered one by one, each from the file at its path. -/
theorem exists_registered {b b' : Batch} {cs : List Contract} (h : b.Registered cs)
    {contracts : List ContractArgument} (hb : (register env b contracts).result = .ok b') :
    ∃ added, b'.Registered (cs ++ added) ∧ List.Forall₂
      (fun a c => c.MadeFrom a.name a.path a.target (env.read a.path)) contracts added := by
  induction contracts generalizing b cs with
  | nil =>
    cases hb
    exact ⟨[], by rwa [List.append_nil], .nil⟩
  | cons a rest ih =>
    rw [register, Logged.result_bind] at hb
    obtain ⟨⟨next, l⟩, hadd, hrest⟩ := bind_eq_ok.mp hb
    obtain ⟨added, hadded, hmade⟩ := ih (h.addSource hadd) hrest
    rw [Batch.result_addSource] at hadd
    obtain ⟨-, -, -, -, hl, -⟩ := Batch.registration_eq_ok hadd
    exact ⟨l.toContract :: added, by rwa [List.append_assoc] at hadded, .cons hl hmade⟩

theorem accountable_plan {b : Batch} {cs : List Contract} (h : b.Registered cs)
    (aliases : AliasTable) : (b.plan options aliases).2.Accountable := by
  refine .bind (fun f hf => ?_) fun _ _ => accountable_of_ok rfl
  rcases h.isOpen.prepare_cases options aliases with
    ⟨g, hg, hlookup, -⟩ | ⟨c, path, herr, -⟩ | ⟨ordered, -, hok, -⟩
  · cases hg.symm.trans hf
    exact hlookup.accountable
  · cases herr.symm.trans hf
    exact ⟨c.name, path.map (·.name), by simp⟩
  · exact nomatch hok.symm.trans hf

theorem accountable_of_outputPaths {directory : String} {owners : Table String String}
    {steps : List Deployment} (h : outputPaths directory owners steps = .error f) :
    f.Accountable := by
  induction steps generalizing owners with
  | nil => cases h
  | cons step rest ih =>
    rw [outputPaths] at h
    split at h
    · cases h
      trivial
    · exact ih (map_eq_error.mp h)

theorem accountable_planOf (contracts : List ContractArgument) (aliases : List (String × String))
    (directory : Option String) :
    (planOf env options contracts aliases directory).Accountable := by
  refine .bind (accountable_aliasTable _ _) fun table _ => ?_
  refine .bind (accountable_register _ _) fun batch hbatch => ?_
  obtain ⟨cs, hregistered, -⟩ := exists_registered .empty hbatch
  refine .bind (accountable_plan hregistered table) fun steps _ => ?_
  split
  · exact accountable_of_ok rfl
  · exact .bind (fun _ => accountable_of_outputPaths) fun _ _ => accountable_of_ok rfl

theorem accountable_of_targetsOf {contracts : List (String × String)}
    (h : Script.targetsOf contracts = .error f) : f.Accountable := by
  obtain ⟨_, row, _, -, -, hrow⟩ := mapM_eq_error_iff.mp (map_eq_error.mp h)
  obtain ⟨-, rfl⟩ := parse_eq_error_iff.mp (map_eq_error.mp hrow)
  trivial

theorem accountable_of_resolveLocation {s : Script} {path location : String}
    {targets : Table String Address} {aliases : AliasTable}
    (h : s.resolveLocation options path targets aliases location = .error f) : f.Accountable := by
  unfold Script.resolveLocation at h
  dsimp only at h
  split at h
  · cases h
  · split at h
    · obtain ⟨-, rfl⟩ := parse_eq_error_iff.mp h
      trivial
    · cases h
      trivial

theorem accountable_resolveLocations (s : Script) (path : String) (targets : Table String Address)
    (aliases : AliasTable) (resolved : Table String Address) (locations : List String) :
    (s.resolveLocations options path targets aliases resolved locations).Accountable := by
  induction locations generalizing resolved with
  | nil => exact accountable_of_ok rfl
  | cons location rest ih =>
    rw [Script.resolveLocations]
    split
    · exact ih resolved
    · refine .bind (fun _ => accountable_of_resolveLocation) fun a _ => ?_
      exact .bind (accountable_of_ok rfl) fun _ _ => ih _

theorem accountable_resolved (contracts : List ContractArgument)
    (aliases : List (String × String)) (file : String) :
    (resolved env options contracts aliases file).Accountable := by
  refine .bind (accountable_aliasTable _ _) fun table _ => ?_
  refine .bind (fun _ => accountable_of_readSource) fun code _ => ?_
  refine .bind (fun _ hf => Program.accountable_of_parse (map_eq_error.mp hf)) fun script _ => ?_
  refine .bind (accountable_of_ok rfl) fun _ _ => ?_
  refine .bind (fun _ => accountable_of_targetsOf) fun targets _ => ?_
  exact .bind (accountable_resolveLocations _ _ _ _ _ _) fun _ _ => accountable_of_ok rfl

theorem accountable_of_tokensOf {file source : String} (h : tokensOf file source = .error f) :
    f.Accountable := by
  unfold tokensOf at h
  split at h
  · cases h
    trivial
  · cases h

-- ---------------------------------------------------------------------------
-- Runs
-- ---------------------------------------------------------------------------

/-- Whether an event asks for a file or a directory. -/
def Event.Writes : Event → Prop
  | .print _ | .log _ => False
  | .makeDirectories _ | .writeFile _ _ => True

variable {workingDirectory : String}

/-- The ways in which a run on a file tree may end. -/
inductive Run.Ends (env : Environment) (tree : FileTree workingDirectory) (r : Run) : Prop
  | done {t : FileTree workingDirectory} :
      r.status = 0 → executeAll tree r.events = .ok t → Ends env tree r
  /-- The tree refuses a file or a directory that the run asks for. -/
  | refused {front back : List Event} {e : Event} {t : FileTree workingDirectory}
      {fault : FileTree.Fault} :
      r.status = 0 → r.events = front ++ e :: back → e.Writes → executeAll tree front = .ok t →
      execute t e = .error fault → Ends env tree r
  /-- A failure is reported and has left no other trace. -/
  | reported {f : Failure} {d : Diagnostic} {log : List Log.Entry} :
      r.failure = some f → f.Accountable → Diagnostic.ofFailure? f = some d → r.status = 1 →
      r.events = (log ++ d.entries env).map .log → r.output = "" →
      executeAll tree r.events = .ok tree → Ends env tree r

theorem executeAll_cons {tree t : FileTree workingDirectory} {e : Event}
    (h : execute tree e = .ok t) (events : List Event) :
    executeAll tree (e :: events) = executeAll t events := by
  rw [executeAll, List.foldlM_cons, h]
  rfl

theorem writes_of_refused {tree : FileTree workingDirectory} {e : Event} {fault : FileTree.Fault}
    (h : execute tree e = .error fault) : e.Writes := by
  cases e with
  | print text => cases h
  | log entry => cases h
  | _ => trivial

/-- Events are all done, up to a file or a directory that is refused. -/
theorem executeAll_cases (tree : FileTree workingDirectory) (events : List Event) :
    (∃ t, executeAll tree events = .ok t) ∨
      ∃ front e back t fault, events = front ++ e :: back ∧ e.Writes ∧
        executeAll tree front = .ok t ∧ execute t e = .error fault := by
  induction events generalizing tree with
  | nil => exact .inl ⟨tree, rfl⟩
  | cons e events ih =>
    cases he : execute tree e with
    | error fault => exact .inr ⟨[], e, events, tree, fault, rfl, writes_of_refused he, rfl, he⟩
    | ok next =>
      rcases ih next with ⟨t, ht⟩ | ⟨front, e', back, t, fault, rfl, hwrites, ht, hfault⟩
      · exact .inl ⟨t, (executeAll_cons he events).trans ht⟩
      · exact .inr ⟨e :: front, e', back, t, fault, rfl, hwrites,
          (executeAll_cons he front).trans ht, hfault⟩

theorem executeAll_log (tree : FileTree workingDirectory) (entries : List Log.Entry) :
    executeAll tree (entries.map .log) = .ok tree := by
  induction entries with
  | nil => rfl
  | cons entry entries ih => exact ih

theorem output_of_log (entries : List Log.Entry) (failure : Option Failure) :
    (Run.mk (entries.map .log) failure).output = "" := by
  induction entries with
  | nil => rfl
  | cons entry entries ih => simpa [Run.output, String.join] using ih

section
variable {α : Type} {work : Logged α}

theorem runOf_of_error (h : work.result = .error f) (further : α → List Event) :
    runOf env work further = ⟨(work.log ++ reportEntries env f).map .log, some f⟩ := by
  rw [runOf, h]

theorem runOf_of_ok {a : α} (h : work.result = .ok a) (further : α → List Event) :
    runOf env work further = ⟨work.log.map .log ++ further a, none⟩ := by
  rw [runOf, h]

theorem ends_runOf (h : work.Accountable) (tree : FileTree workingDirectory)
    (further : α → List Event) : (runOf env work further).Ends env tree := by
  cases hresult : work.result with
  | error f =>
    have hf := h f hresult
    obtain ⟨d, hd⟩ := hf.exists_diagnostic
    have hreport : reportEntries env f = d.entries env := by
      rw [reportEntries, hd]
    rw [runOf_of_error hresult, hreport]
    exact .reported rfl hf hd rfl rfl (output_of_log _ _) (executeAll_log tree _)
  | ok a =>
    rw [runOf_of_ok hresult]
    rcases executeAll_cases tree (work.log.map .log ++ further a) with
      ⟨t, ht⟩ | ⟨front, e, back, t, fault, he, hwrites, ht, hfault⟩
    · exact .done rfl ht
    · exact .refused rfl he hwrites ht hfault

end

/-- Whatever the arguments, the files and the variable for aliases, a run does all its work, is
stopped by a file or directory that the tree refuses, or reports a failure and does nothing else. -/
theorem run_ends (env : Environment) (arguments : Arguments)
    (tree : FileTree workingDirectory) : (run env arguments).Ends env tree := by
  unfold run
  cases arguments.action with
  | order contracts aliases showCode directory =>
    exact ends_runOf (accountable_planOf contracts aliases directory) tree _
  | resolve contracts aliases output file =>
    exact ends_runOf (accountable_resolved contracts aliases file) tree _
  | imports file =>
    refine ends_runOf (fun f hf => ?_) tree _
    rcases bind_eq_error.mp hf with hread | ⟨source, -, hparse⟩
    · exact accountable_of_readSource hread
    · exact Program.accountable_of_parse hparse
  | tokens withEnd file =>
    refine ends_runOf (fun f hf => ?_) tree _
    rcases bind_eq_error.mp hf with hread | ⟨source, -, htokens⟩
    · exact accountable_of_readSource hread
    · exact accountable_of_tokensOf htokens

example : run { workingDirectory := "/w", read := fun _ => .error .missing }
      ⟨{}, .tokens false "A.cdc"⟩ =
    ⟨[.log ⟨.error, "error: file: [PRE-0010] cannot read contract source 'A.cdc': file not found"⟩],
      some (.unreadable "A.cdc" "file not found")⟩ := by decide +kernel

end Command

end ContractLinker
