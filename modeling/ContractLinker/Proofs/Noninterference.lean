import ContractLinker.Command.Execution
import ContractLinker.Proofs.Outcome
import ContractLinker.Proofs.Path
import ContractLinker.Session
import Mathlib.Data.List.Forall2

/-!
# Logging bears on nothing but the log

Runs with different log settings agree in all that they leave besides their logs, whether of the
program, of a session or of a script. Of two plain logs, the one with the lower threshold has some
of the other's lines, in their order. `log_noninterference` puts it together; what the program
leaves is its `outcome`, also where the files stop it halfway.
-/

namespace ContractLinker

-- ---------------------------------------------------------------------------
-- The lines of a log
-- ---------------------------------------------------------------------------

namespace Log

variable {stamp stamp' : String} {lower higher : Settings}

/-- The lines of a text that is empty or ends in a newline. -/
def lines (text : String) : List (List Char) := (Text.split '\n' text.toList).dropLast

/-- Settings that show plain messages, and those of fewer levels. -/
structure Settings.Quieter (lower higher : Settings) : Prop where
  lower_plain : lower.rich = false
  higher_plain : higher.rich = false
  threshold : lower.threshold.rank ≤ higher.threshold.rank

theorem render_append (settings : Option Settings) (front back : List Entry) :
    render stamp settings (front ++ back) = render stamp settings front ++
      render stamp settings back := by
  rw [render, List.map_append, String.join_append]
  rfl

theorem render_singleton (s : Settings) (e : Entry) :
    render stamp (some s) [e] = e.render stamp s := by
  simp [render, String.join_cons]

theorem lines_line_append (line text : String) :
    lines (line ++ "\n" ++ text) = Text.split '\n' line.toList ++ lines text := by
  simp only [lines, String.toList_append]
  rw [show ("\n" : String).toList = ['\n'] from rfl, List.append_assoc, List.singleton_append,
    Text.split_append_cons, List.dropLast_append_of_ne_nil (Text.split_ne_nil _ _)]

/-- The message of an entry may take several lines, which are shown or left out together. -/
theorem lines_render_cons (s : Settings) (e : Entry) (entries : List Entry) :
    lines (render stamp (some s) (e :: entries)) =
      (if s.admits e then Text.split '\n' (s.mark stamp e.level ++ e.message).toList else []) ++
        lines (render stamp (some s) entries) := by
  rw [← List.singleton_append, render_append, render_singleton, Entry.render]
  split
  · exact lines_line_append _ _
  · rw [String.empty_append, List.nil_append]

theorem Settings.Quieter.admits (h : lower.Quieter higher) {e : Entry}
    (he : lower.admits e = true) : higher.admits e = true := by
  simp only [Settings.admits, decide_eq_true_eq] at he ⊢
  exact Nat.le_trans he h.threshold

theorem lines_sublist (h : lower.Quieter higher) (entries : List Entry) :
    (lines (render stamp (some lower) entries)).Sublist
      (lines (render stamp' (some higher) entries)) := by
  induction entries with
  | nil => exact .refl _
  | cons e entries ih =>
    rw [lines_render_cons, lines_render_cons]
    refine List.Sublist.append ?_ ih
    split
    · next he =>
      rw [if_pos (h.admits he), Settings.mark, Settings.mark, h.lower_plain, h.higher_plain]
      exact .refl _
    · exact List.nil_sublist _

end Log

-- ---------------------------------------------------------------------------
-- Operations
-- ---------------------------------------------------------------------------

namespace Logged

/-- What there is to see of an operation. -/
structure Seen (α : Type) where
  result : Except Failure α
  log : String

/-- The same result; and only lines of the other log, if the settings are the quieter ones. -/
structure Seen.Within {α : Type} (lower higher : Log.Settings) (low high : Seen α) : Prop where
  result : low.result = high.result
  lines : lower.Quieter higher → (Log.lines low.log).Sublist (Log.lines high.log)

def seen {α : Type} (stamp : String) (settings : Log.Settings) (x : Logged α) : Seen α :=
  ⟨x.result, Log.render stamp (some settings) x.log⟩

theorem within_seen {α : Type} (stamp stamp' : String) (lower higher : Log.Settings)
    (x : Logged α) : (x.seen stamp lower).Within lower higher (x.seen stamp' higher) :=
  ⟨rfl, fun h => Log.lines_sublist h x.log⟩

end Logged

/-- What there is to see of a run of a session, with the state that each step leaves. -/
def Session.transcript (stamp : String) (settings : Settings)
    (read : String → Except Failure String) (s : Session) (requests : List Request) :
    List (Session × Logged.Seen Reply) :=
  (s.run settings.toOptions read requests).map fun step => (step.1, step.2.seen stamp settings.log)

/-- What a script is resolved with. -/
structure Script.Call where
  path : String
  contracts : Table String String
  aliases : AliasTable

/-- What there is to see of a script that is resolved again and again. -/
def Script.transcript (stamp : String) (settings : Settings) (s : Script) (calls : List Call) :
    List (Logged.Seen String) :=
  calls.map fun c =>
    (s.resolve settings.toOptions c.path c.contracts c.aliases).seen stamp settings.log

-- ---------------------------------------------------------------------------
-- The program
-- ---------------------------------------------------------------------------

namespace Command

/-- Flags without what they ask of the log. -/
def Flags.quiet (f : Flags) : Flags := { f with verbosity := 0, rich := false }

def Arguments.quiet (a : Arguments) : Arguments := { a with flags := a.flags.quiet }

theorem Flags.quiet_adding {f f' : Flags} (h : f.quiet = f'.quiet) (item : Item) :
    (f.adding item).quiet = (f'.adding item).quiet := by
  simp only [quiet, Flags.mk.injEq, true_and] at h
  unfold adding
  split <;> simp [quiet, h]

theorem Flags.quiet_foldl_adding {f f' : Flags} (h : f.quiet = f'.quiet) (items : List Item) :
    (items.foldl adding f).quiet = (items.foldl adding f').quiet := by
  induction items generalizing f f' with
  | nil => exact h
  | cons item items ih => exact ih (quiet_adding h item)

theorem parseFrom?_option {argument : String} {name : OptionName} {attached : List Char}
    (h : commonOptions.read argument = .option name attached) (f : Flags) (rest : List String) :
    parseFrom? f (argument :: rest) =
      (takeOption? commonOptions name attached rest).bind fun taken =>
        parseFrom? (taken.1.foldl Flags.adding f) taken.2 := by
  rw [parseFrom?]
  simp only [h]
  split
  · next htake => rw [htake, Option.bind_some]
  · next htake => rw [htake, Option.bind_none]

/-- The options for the log have no part in how the others are read. -/
theorem map_quiet_parseFrom? {f f' : Flags} (h : f.quiet = f'.quiet) (argv : List String) :
    (parseFrom? f argv).map Arguments.quiet = (parseFrom? f' argv).map Arguments.quiet := by
  induction f, argv using parseFrom?.induct generalizing f' with
  | case1 => simp [parseFrom?]
  | case2 f argument rest hread =>
    simp only [parseFrom?, hread, Option.map_map]
    congr 1
    funext action
    exact congrArg (Arguments.mk · action) h
  | case3 f argument rest hread => simp [parseFrom?, hread]
  | case4 f argument rest hread => simp [parseFrom?, hread]
  | case5 f argument rest name attached hread items behind htake hle ih =>
    simpa [parseFrom?_option hread, htake] using ih (Flags.quiet_foldl_adding h items)
  | case6 f argument rest name attached hread htake => simp [parseFrom?_option hread, htake]

/-- An option for the log, put first, is no matter to anything else. -/
theorem map_quiet_parse?_cons {argument : String} {name : OptionName}
    (hread : commonOptions.read argument = .option name []) (hname : name = .verbose ∨ name = .rich)
    (argv : List String) :
    (parse? (argument :: argv)).map Arguments.quiet = (parse? argv).map Arguments.quiet := by
  have htake : takeOption? commonOptions name [] argv = some ([.option name []], argv) := by
    rcases hname with rfl | rfl <;>
      simp [takeOption?, OptionTable.spelled?, Spelled.items?, takeValues?, OptionName.arity]
  rw [parse?, parseFrom?_option hread, htake]
  exact map_quiet_parseFrom? (by rcases hname with rfl | rfl <;> rfl) argv

/-- Command lines that differ at most in what they ask of the log. -/
def Alike (argv argv' : List String) : Prop :=
  (parse? argv).map Arguments.quiet = (parse? argv').map Arguments.quiet

theorem run_quiet (env : Environment) (a : Arguments) : run env a.quiet = run env a := rfl

def Event.printed : Event → String
  | .print text => text
  | _ => ""

def Event.shown (stamp : String) (settings : Log.Settings) : Event → String
  | .log entry => entry.render stamp settings
  | _ => ""

/-- What the program leaves behind: its exit status, its standard output, its log, and the files. -/
structure Outcome (workingDirectory : String) where
  status : Nat
  output : String
  log : String
  tree : FileTree workingDirectory

section
variable {workingDirectory : String}

/-- What is left when events are done one by one, up to one that the files refuse. -/
def Outcome.perform (stamp : String) (settings : Log.Settings) (o : Outcome workingDirectory) :
    List Event → Outcome workingDirectory
  | [] => o
  | event :: rest =>
    match execute o.tree event with
    | .error _ => { o with status := 1 }
    | .ok tree =>
      { o with
        output := o.output ++ event.printed
        log := o.log ++ event.shown stamp settings
        tree }.perform stamp settings rest

/-- What the program leaves behind when it is called; a wrong call leaves nothing. -/
def outcome (stamp : String) (env : Environment) (tree : FileTree workingDirectory)
    (argv : List String) : Outcome workingDirectory :=
  match parse? argv with
  | none => ⟨2, "", "", tree⟩
  | some a =>
    let r := run env a
    Outcome.perform stamp a.flags.settings.log ⟨r.status, "", "", tree⟩ r.events

/-- Outcomes that are the same but for their logs, which show the same entries, each with its own
settings. -/
structure Outcome.Shows (stamp stamp' : String) (s s' : Log.Settings)
    (o o' : Outcome workingDirectory) : Prop where
  status : o.status = o'.status
  output : o.output = o'.output
  tree : o.tree = o'.tree
  entries : ∃ entries, o.log = Log.render stamp (some s) entries ∧
    o'.log = Log.render stamp' (some s') entries

theorem Event.exists_shown (event : Event) : ∃ entries, ∀ stamp settings,
    event.shown stamp settings = Log.render stamp (some settings) entries := by
  cases event with
  | log entry => exact ⟨[entry], fun _ settings => (Log.render_singleton settings entry).symm⟩
  | _ => exact ⟨[], fun _ _ => rfl⟩

variable {stamp stamp' : String} {s s' : Log.Settings} {o o' : Outcome workingDirectory}

theorem Outcome.Shows.perform (h : Shows stamp stamp' s s' o o') (events : List Event) :
    Shows stamp stamp' s s' (o.perform stamp s events) (o'.perform stamp' s' events) := by
  induction events generalizing o o' with
  | nil => exact h
  | cons event events ih =>
    rw [Outcome.perform, Outcome.perform, h.tree]
    split
    · exact ⟨rfl, h.output, rfl, h.entries⟩
    · refine ih ⟨h.status, congrArg (· ++ event.printed) h.output, rfl, ?_⟩
      obtain ⟨front, hfront, hfront'⟩ := h.entries
      obtain ⟨back, hback⟩ := event.exists_shown
      exact ⟨front ++ back, by rw [Log.render_append, hfront, hback],
        by rw [Log.render_append, hfront', hback]⟩

theorem Outcome.Shows.lines_sublist (h : Shows stamp stamp' s s' o o') (hs : s.Quieter s') :
    (Log.lines o.log).Sublist (Log.lines o'.log) := by
  obtain ⟨entries, ho, ho'⟩ := h.entries
  rw [ho, ho']
  exact Log.lines_sublist hs entries

theorem shows_outcome (stamp stamp' : String) (env : Environment)
    (tree : FileTree workingDirectory) {argv argv' : List String} {a a' : Arguments}
    (ha : parse? argv = some a) (ha' : parse? argv' = some a') (h : a.quiet = a'.quiet) :
    Outcome.Shows stamp stamp' a.flags.settings.log a'.flags.settings.log
      (outcome stamp env tree argv) (outcome stamp' env tree argv') := by
  have hrun : run env a = run env a' := by
    rw [← run_quiet env a, ← run_quiet env a', h]
  simp only [outcome, ha, ha', hrun]
  exact Outcome.Shows.perform ⟨rfl, rfl, rfl, [], rfl, rfl⟩ _

end

end Command

-- ---------------------------------------------------------------------------
-- Noninterference
-- ---------------------------------------------------------------------------

open Command

/-- Settings of the log bear on nothing but the log: not on the exit status, the output and the
files of the program, whatever its arguments and wherever its writing stops; and not on the results
and the states of sessions and scripts. If both logs are plain, the lines of the quieter one are
some of the other's. -/
theorem log_noninterference (stamp stamp' : String) :
    (∀ workingDirectory env (tree : FileTree workingDirectory) argv argv', Alike argv argv' →
      (outcome stamp env tree argv).status = (outcome stamp' env tree argv').status ∧
      (outcome stamp env tree argv).output = (outcome stamp' env tree argv').output ∧
      (outcome stamp env tree argv).tree = (outcome stamp' env tree argv').tree ∧
      ∀ a ∈ parse? argv, ∀ a' ∈ parse? argv',
        a.flags.settings.log.Quieter a'.flags.settings.log →
          (Log.lines (outcome stamp env tree argv).log).Sublist
            (Log.lines (outcome stamp' env tree argv').log)) ∧
    (∀ argv, Alike ("-v" :: argv) argv ∧ Alike ("-l" :: argv) argv) ∧
    (∀ (settings : Settings) (lower higher : Log.Settings) read (s : Session) requests,
      List.Forall₂ (fun low high => low.1 = high.1 ∧ low.2.Within lower higher high.2)
        (s.transcript stamp { settings with log := lower } read requests)
        (s.transcript stamp' { settings with log := higher } read requests)) ∧
    ∀ (settings : Settings) (lower higher : Log.Settings) (s : Script) calls,
      List.Forall₂ (Logged.Seen.Within lower higher)
        (s.transcript stamp { settings with log := lower } calls)
        (s.transcript stamp' { settings with log := higher } calls) := by
  refine ⟨fun _ env tree argv argv' halike => ?_, fun argv => ?_,
    fun settings lower higher read s requests => ?_, fun settings lower higher s calls => ?_⟩
  · cases ha : parse? argv with
    | none =>
      have ha' : parse? argv' = none := by simpa [Alike, ha] using halike.symm
      simp [outcome, ha, ha']
    | some a =>
      obtain ⟨a', ha', hquiet⟩ : ∃ a', parse? argv' = some a' ∧ a'.quiet = a.quiet := by
        simpa [Alike, ha] using halike.symm
      have hshows := shows_outcome stamp stamp' env tree ha ha' hquiet.symm
      refine ⟨hshows.status, hshows.output, hshows.tree, ?_⟩
      rintro b hb b' hb' hquieter
      cases hb
      cases ha'.symm.trans hb'
      exact hshows.lines_sublist hquieter
  · exact ⟨map_quiet_parse?_cons (by decide) (.inl rfl) argv,
      map_quiet_parse?_cons (by decide) (.inr rfl) argv⟩
  · rw [Session.transcript, Session.transcript, List.forall₂_map_left_iff,
      List.forall₂_map_right_iff, List.forall₂_same]
    exact fun step _ => ⟨rfl, Logged.within_seen stamp stamp' lower higher step.2⟩
  · rw [Script.transcript, Script.transcript, List.forall₂_map_left_iff,
      List.forall₂_map_right_iff, List.forall₂_same]
    exact fun _ _ => Logged.within_seen stamp stamp' lower higher _

theorem log_noninterference_verbose :
    let env : Environment := { workingDirectory := "/w", read := fun _ => .ok "" }
    let argv := ["order", "-c", "A", "A.cdc", "0x01"]
    let tree : FileTree := {}
    let low := outcome "" env tree argv
    let high := outcome "" env tree ("-v" :: argv)
    low.log = "" ∧ high.log = "Alias(es): <none>\nResolving imports of 1 contract(s)...\n" ++
        "Sorting contracts by deployment order...\nDeployment order: A\n" ∧
      low.output = "1. A -> 0x01 (A.cdc)\n" ∧ low.output = high.output ∧
      (Log.lines low.log).Sublist (Log.lines high.log) := by
  intro env argv tree low high
  obtain ⟨hprogram, hargv, -⟩ := log_noninterference "" ""
  obtain ⟨-, houtput, -, hlines⟩ := hprogram _ env tree _ _ (hargv argv).1.symm
  let action := Action.order [⟨"A", "A.cdc", "0x01"⟩] [] false none
  have hlow : parse? argv = some ⟨{}, action⟩ := by decide +kernel
  have hhigh : parse? ("-v" :: argv) = some ⟨{ verbosity := 1 }, action⟩ := by decide +kernel
  exact ⟨by decide +kernel, by decide +kernel, by decide +kernel, houtput,
    hlines _ hlow _ hhigh ⟨rfl, rfl, by decide⟩⟩

end ContractLinker
