import ContractLinker.Proofs.Command.Run
import ContractLinker.Proofs.FileTree
import ContractLinker.Proofs.Table

/-!
# The files that contracts are written to

`order_writes`: if two planned contracts would be written to one file, the first that finds its file
taken is reported with the one that took it, and nothing is written; if not, each contract has its
linked code in a file of its own, and no other file has changed. The directory may lie below the
working directory or anywhere else.
-/

namespace ContractLinker

/-- Only files are read. What has no name at its end of the path is a directory. -/
def Environment.ReadsFiles (env : Environment) : Prop :=
  ∀ path text, env.read path = .ok text → Path.Named path

namespace Command

variable {env : Environment} {options : Options} {contracts : List ContractArgument}
  {aliases : List (String × String)} {directory : Option String} {d owner : String}
  {owners : Table String String} {steps front back : List Deployment} {first second : Deployment}
  {workingDirectory : String} {tree opened : FileTree workingDirectory}

theorem readsFiles_environmentOf (wording : FileTree.Fault → String)
    (aliasEntries : Option String) (tree : FileTree workingDirectory) :
    (environmentOf workingDirectory wording aliasEntries tree).ReadsFiles := by
  intro path text h
  simp only [environmentOf] at h
  split at h
  · next hread =>
    obtain ⟨bytes, hbytes, -⟩ := bind_eq_ok.mp hread
    exact FileTree.named_of_readBytes hbytes
  · cases h
  · cases h

-- ---------------------------------------------------------------------------
-- Plans
-- ---------------------------------------------------------------------------

/-- The plan for some contracts, before there is any thought of files. -/
def planned (env : Environment) (options : Options) (contracts : List ContractArgument)
    (aliases : List (String × String)) : Logged (List Deployment) := do
  let table ← aliasTable env.aliasEntries aliases
  let batch ← register env {} contracts
  (batch.plan options table).2

theorem result_planOf (directory : Option String) :
    (planOf env options contracts aliases directory).result =
      (planned env options contracts aliases).result.bind fun steps =>
        match namedDirectory? directory with
        | none => .ok (steps.map (·, none))
        | some d => (outputPaths d .empty steps).map fun paths => steps.zip (paths.map some) := by
  simp only [planOf, planned, Logged.result_bind]
  cases (aliasTable env.aliasEntries aliases).result with
  | error f => rfl
  | ok table =>
    cases (register env {} contracts).result with
    | error f => simp [Except.bind]
    | ok batch =>
      simp only [Except.bind]
      cases (batch.plan options table).2.result with
      | error f => rfl
      | ok steps =>
        cases namedDirectory? directory with
        | none => rfl
        | some d =>
          simp only [Logged.result_bind, Logged.result_ofExcept]
          cases outputPaths d .empty steps <;> rfl

/-- Each step has the linked code of its contract, which was registered from a file. -/
theorem of_mem_planned (h : (planned env options contracts aliases).result = .ok steps)
    {step : Deployment} (hstep : step ∈ steps) :
    step.code = step.contract.linkedCode options.everyOccurrence ∧
      ∃ a ∈ contracts, step.contract.path = Path.clean a.path ∧
        ∃ text, env.read a.path = .ok text := by
  simp only [planned, Logged.result_bind] at h
  obtain ⟨table, -, h⟩ := bind_eq_ok.mp h
  obtain ⟨batch, hbatch, h⟩ := bind_eq_ok.mp h
  simp only [Batch.plan, Logged.result_bind] at h
  obtain ⟨ordered, hordered, h⟩ := bind_eq_ok.mp h
  cases h
  obtain ⟨c, hc, rfl⟩ := List.mem_map.mp hstep
  obtain ⟨added, hregistered, hmade⟩ := exists_registered .empty hbatch
  rw [List.nil_append] at hregistered
  have hpaths := (hregistered.isOpen.prepare_ok hordered).2
  obtain ⟨k, hk, hpath⟩ := List.mem_map.mp (hpaths.subset (List.mem_map_of_mem hc))
  obtain ⟨a, ha, hfrom⟩ := exists_of_forall₂ hmade hk
  exact ⟨rfl, a, ha, hpath.symm.trans hfrom.path_eq, k.code, hfrom.source_eq⟩

-- ---------------------------------------------------------------------------
-- Files taken
-- ---------------------------------------------------------------------------

def fileName (step : Deployment) : String := Path.lastSegment step.contract.path

/-- The path of the file that a step is written to. -/
def filePath (directory : String) (step : Deployment) : String :=
  Path.join directory (fileName step)

/-- The same path as the program writes it. -/
def outputFile (directory : String) (step : Deployment) : String :=
  outputPath directory step.contract.toContract

theorem outputPaths_cons {step : Deployment} (h : owners.get? (outputFile d step) = none)
    (rest : List Deployment) :
    outputPaths d owners (step :: rest) =
      (outputPaths d (owners.insert (outputFile d step) step.contract.name) rest).map
        (outputFile d step :: ·) := by
  rw [outputPaths]
  simp only [outputFile] at h ⊢
  rw [h]

theorem outputPaths_of_owner {step : Deployment} (h : owners.get? (outputFile d step) = some owner)
    (rest : List Deployment) :
    outputPaths d owners (step :: rest) =
      .error (.outputCollision (outputFile d step) owner step.contract.name) := by
  rw [outputPaths]
  simp only [outputFile] at h ⊢
  rw [h]

/-- Steps with files of their own take them one by one. -/
theorem outputPaths_append (h : (front.map (outputFile d)).Nodup)
    (howners : ∀ step ∈ front, owners.get? (outputFile d step) = none) (back : List Deployment) :
    outputPaths d owners (front ++ back) =
      (outputPaths d
        (owners.insertAll (front.map fun step => (outputFile d step, step.contract.name)))
        back).map (front.map (outputFile d) ++ ·) := by
  induction front generalizing owners with
  | nil =>
    simp only [List.nil_append, List.map_nil]
    exact (id_map _).symm
  | cons step rest ih =>
    obtain ⟨hstep, hrest⟩ := List.forall_mem_cons.mp howners
    rw [List.map_cons, List.nodup_cons] at h
    have hnext : ∀ other ∈ rest, (owners.insert (outputFile d step) step.contract.name).get?
        (outputFile d other) = none := by
      intro other hother
      have hne : outputFile d other ≠ outputFile d step := fun he =>
        h.1 (he ▸ List.mem_map_of_mem hother)
      rw [Table.get?_insert, if_neg hne, hrest other hother]
    rw [List.cons_append, outputPaths_cons hstep, ih h.2 hnext, List.map_cons, List.map_cons,
      Table.insertAll_cons]
    cases outputPaths d _ back <;> rfl

theorem outputPaths_of_nodup (h : (steps.map (outputFile d)).Nodup) :
    outputPaths d .empty steps = .ok (steps.map (outputFile d)) := by
  have happend := outputPaths_append h (fun _ _ => Table.get?_empty _) []
  simpa [outputPaths, Except.map] using happend

/-- The first step whose file is taken is reported with the one that took it. -/
theorem outputPaths_of_taken (h : (front.map (outputFile d)).Nodup) (hfirst : first ∈ front)
    (htaken : outputFile d first = outputFile d second) :
    outputPaths d .empty (front ++ second :: back) =
      .error (.outputCollision (outputFile d second) first.contract.name second.contract.name) := by
  have hrows : ((front.map fun step => (outputFile d step, step.contract.name)).map
      Prod.fst).Nodup := by
    simpa [Function.comp_def] using h
  have howner : (Table.insertAll .empty
      (front.map fun step => (outputFile d step, step.contract.name))).get? (outputFile d second) =
        some first.contract.name := by
    rw [← Table.ofList, Table.get?, Table.entries_ofList hrows, Table.find_eq_some_iff hrows,
      ← htaken]
    exact List.mem_map_of_mem hfirst
  rw [outputPaths_append h fun _ _ => Table.get?_empty _, outputPaths_of_owner howner]
  rfl

theorem exists_taken {α β : Type} {f : α → β} {l : List α} (h : ¬ (l.map f).Nodup) :
    ∃ front a back, l = front ++ a :: back ∧ (front.map f).Nodup ∧ ∃ b ∈ front, f b = f a := by
  induction l using List.reverseRecOn with
  | nil => exact absurd List.nodup_nil h
  | append_singleton l a ih =>
    by_cases hl : (l.map f).Nodup
    · refine ⟨l, a, [], rfl, hl, ?_⟩
      simpa [List.nodup_append, hl] using h
    · obtain ⟨front, b, back, rfl, hfront⟩ := ih hl
      exact ⟨front, b, back ++ [a], by simp, hfront⟩

theorem eq_pair_of_map {α β : Type} {f : α → β} {l : List α} {x y : β} (h : l.map f = [x, y]) :
    ∃ a b, l = [a, b] ∧ f a = x ∧ f b = y := by
  obtain ⟨a, _, rfl, ha, hrest⟩ := List.map_eq_cons_iff.mp h
  obtain ⟨b, _, rfl, hb, hnil⟩ := List.map_eq_cons_iff.mp hrest
  obtain rfl := List.map_eq_nil_iff.mp hnil
  exact ⟨a, b, rfl, ha, hb⟩

-- ---------------------------------------------------------------------------
-- Events
-- ---------------------------------------------------------------------------

theorem executeAll_append_of_not_writes {events : List Event} (h : ∀ e ∈ events, ¬ e.Writes)
    (further : List Event) : executeAll tree (events ++ further) = executeAll tree further := by
  induction events with
  | nil => rfl
  | cons e events ih =>
    obtain ⟨he, hevents⟩ := List.forall_mem_cons.mp h
    have hkeeps : execute tree e = .ok tree := by
      cases e with
      | print text => rfl
      | log entry => rfl
      | _ => exact absurd trivial he
    rw [List.cons_append, executeAll_cons hkeeps, ih hevents]

theorem executeAll_writing (tree : FileTree workingDirectory) (path : Deployment → String)
    (steps : List Deployment) :
    executeAll tree (writing (steps.map fun step => (step, some (path step)))) =
      steps.foldlM (fun t step => t.writeText (path step) step.code) tree := by
  induction steps generalizing tree with
  | nil => rfl
  | cons step steps ih =>
    rw [List.foldlM_cons]
    cases hwrite : tree.writeText (path step) step.code with
    | error fault =>
      rw [List.map_cons, writing, List.flatMap_cons, executeAll, List.cons_append,
        List.foldlM_cons, execute, hwrite]
      rfl
    | ok t =>
      have hstep : execute tree (.writeFile (path step) step.code) = .ok t := hwrite
      rw [List.map_cons, writing, List.flatMap_cons, List.cons_append, executeAll_cons hstep]
      exact ih t

/-- The events of a run that orders contracts and writes them to files. -/
theorem order_of_nodup (hd : namedDirectory? directory = some d)
    (hplan : (planned env options contracts aliases).result = .ok steps)
    (h : (steps.map (outputFile d)).Nodup) (showCode : Bool) :
    ∃ silent : List Event, (∀ e ∈ silent, ¬ e.Writes) ∧
      order env options contracts aliases showCode directory =
        ⟨silent ++ ((if steps = [] then none else some d).toList.map .makeDirectories ++
          writing (steps.map fun step => (step, some (outputFile d step)))), none⟩ := by
  have hzip : steps.zip ((steps.map (outputFile d)).map some) =
      steps.map fun step => (step, some (outputFile d step)) := by
    simpa using List.zip_map' (f := id) (g := some ∘ outputFile d) (l := steps)
  have hresult : (planOf env options contracts aliases directory).result =
      .ok (steps.map fun step => (step, some (outputFile d step))) := by
    rw [result_planOf, hplan, Except.bind]
    simp only [hd]
    rw [outputPaths_of_nodup h, Except.map, hzip]
  have hsteps : (steps.map fun step => (step, some (outputFile d step))).map Prod.fst = steps := by
    simp [Function.comp_def]
  rw [order, runOf_of_ok hresult]
  simp only [hsteps, hd]
  refine ⟨(planOf env options contracts aliases directory).log.map .log ++ (listing steps ++
    if showCode then codeListing steps else []), ?_, ?_⟩
  · intro e he
    simp only [List.mem_append, List.mem_map, listing] at he
    rcases he with ⟨entry, -, rfl⟩ | ⟨⟨step, i⟩, -, rfl⟩ | he
    · exact id
    · exact id
    · split at he
      · simp only [codeListing, List.mem_flatMap, List.mem_cons, List.not_mem_nil, or_false] at he
        obtain ⟨step, -, rfl | rfl | rfl⟩ := he <;> exact id
      · cases he
  · simp only [List.append_assoc]

/-- A run whose contracts cannot all have files of their own does nothing but report it. -/
theorem order_of_taken (hd : namedDirectory? directory = some d)
    (hplan : (planned env options contracts aliases).result = .ok (front ++ second :: back))
    (h : (front.map (outputFile d)).Nodup) (hfirst : first ∈ front)
    (htaken : outputFile d first = outputFile d second) (showCode : Bool) :
    ∃ log : List Log.Entry, order env options contracts aliases showCode directory =
      ⟨log.map .log, some (.outputCollision (outputFile d second) first.contract.name
        second.contract.name)⟩ := by
  have hresult : (planOf env options contracts aliases directory).result =
      .error (.outputCollision (outputFile d second) first.contract.name second.contract.name) := by
    rw [result_planOf, hplan, Except.bind]
    simp only [hd]
    rw [outputPaths_of_taken h hfirst htaken, Except.map]
  exact ⟨_, runOf_of_error hresult _⟩

-- ---------------------------------------------------------------------------
-- Names
-- ---------------------------------------------------------------------------

theorem isName_fileName (henv : env.ReadsFiles)
    (h : (planned env options contracts aliases).result = .ok steps) {step : Deployment}
    (hstep : step ∈ steps) : Path.IsName (fileName step).toList := by
  obtain ⟨-, a, -, hpath, text, hread⟩ := of_mem_planned h hstep
  rw [fileName, hpath]
  exact (henv a.path text hread).isName

theorem route_filePath (d : String) {step : Deployment} (h : Path.IsName (fileName step).toList) :
    FileTree.route (filePath d step) =
      ((FileTree.route d).1, (FileTree.route d).2 ++ [fileName step]) :=
  FileTree.route_join d h

/-- Files in a directory are told apart by their names. -/
theorem nodup_outputFile_iff (d : String) (h : ∀ step ∈ steps, Path.IsName (fileName step).toList) :
    (steps.map (outputFile d)).Nodup ↔ (steps.map fileName).Nodup := by
  have hmap : steps.map (outputFile d) =
      (steps.map fileName).map fun name => Path.tidy (Path.join d name) := by
    rw [List.map_map]
    rfl
  rw [hmap]
  refine ⟨List.Nodup.of_map _, List.Nodup.map_on fun x hx y hy hxy => ?_⟩
  obtain ⟨step, hstep, rfl⟩ := List.mem_map.mp hx
  obtain ⟨other, hother, rfl⟩ := List.mem_map.mp hy
  have hroute : FileTree.route (filePath d step) = FileTree.route (filePath d other) := by
    rw [← FileTree.route_tidy (filePath d step), ← FileTree.route_tidy (filePath d other)]
    exact congrArg FileTree.route hxy
  rw [route_filePath d (h step hstep), route_filePath d (h other hother)] at hroute
  simpa using hroute

/-- Files that can be opened in a directory lie where it is. -/
theorem opens_append (h : ∀ step ∈ steps, Path.IsName (fileName step).toList)
    {base : FileTree.Place} (hbase : opened.locate d = .ok base)
    (hopens : ∀ step ∈ steps, ∃ place, opened.Opens (filePath d step) place) :
    ∀ step ∈ steps, opened.Opens (filePath d step) (base ++ [fileName step]) := by
  intro step hstep
  obtain ⟨place, hplace⟩ := hopens step hstep
  obtain ⟨found, hwalk, rfl⟩ := hplace.eq_append (route_filePath d (h step hstep))
    fun he => (h step hstep).ne_parent (by rw [he]; rfl)
  cases (FileTree.walk_of_locate hbase).symm.trans hwalk
  exact hplace

/-- Steps with files of their own are all written, and nothing else is. -/
theorem executeAll_writing_of_nodup (h : ∀ step ∈ steps, Path.IsName (fileName step).toList)
    {base : FileTree.Place} (hbase : opened.locate d = .ok base)
    (hopens : ∀ step ∈ steps, ∃ place, opened.Opens (filePath d step) place)
    (hnodup : (steps.map fileName).Nodup) :
    ∃ after, executeAll opened (writing (steps.map fun step => (step, some (outputFile d step)))) =
        .ok after ∧
      (∀ step ∈ steps, after.readBytes (filePath d step) = .ok step.code.toUTF8) ∧
      ∀ place, (∀ step ∈ steps, ¬ opened.Opens (filePath d step) place) →
        ∀ bytes, after.node place = .file bytes ↔ opened.node place = .file bytes := by
  have hfile := opens_append h hbase hopens
  have hapart : steps.Pairwise fun step other =>
      ¬ base ++ [fileName step] <+: base ++ [fileName other] ∧
        ¬ base ++ [fileName other] <+: base ++ [fileName step] := by
    refine (List.pairwise_map.mp hnodup).imp fun {step other} hne => ?_
    simp [List.prefix_append_right_inj, hne, hne.symm]
  obtain ⟨after, hafter, hfiles, hchanges⟩ := FileTree.foldlM_writeText (·.code) hfile hapart
  refine ⟨after, ?_, fun step hstep => ?_, fun place hplace => ?_⟩
  · rw [executeAll_writing, ← hafter]
    simp only [outputFile, outputPath, FileTree.writeText_tidy]
    rfl
  · exact FileTree.readBytes_of_node (hfile step hstep) hchanges (hfiles step hstep)
  · refine hchanges.file_iff place fun hmem => ?_
    obtain ⟨step, hstep, rfl⟩ := List.mem_map.mp hmem
    exact hplace step hstep (hfile step hstep)

-- ---------------------------------------------------------------------------
-- Runs that order contracts
-- ---------------------------------------------------------------------------

section
variable {flags : Flags} {showCode : Bool}

theorem run_of_taken (henv : env.ReadsFiles) (hd : namedDirectory? directory = some d)
    (hplan : (planned env flags.settings.toOptions contracts aliases).result =
      .ok (front ++ second :: back))
    (hfront : (front.map fileName).Nodup) (hfirst : first ∈ front)
    (hsame : fileName first = fileName second) :
    let r := run env ⟨flags, .order contracts aliases showCode directory⟩
    r.failure = some (.outputCollision (Path.tidy (filePath d second))
        first.contract.name second.contract.name) ∧
      r.status = 1 ∧ r.output = "" ∧
      ∀ workingDirectory (tree : FileTree workingDirectory),
        executeAll tree r.events = .ok tree := by
  intro r
  have hfiles : (front.map (outputFile d)).Nodup := (nodup_outputFile_iff d fun step hstep =>
    isName_fileName henv hplan (List.mem_append_left _ hstep)).mpr hfront
  obtain ⟨log, hlog⟩ := order_of_taken hd hplan hfiles hfirst
    (congrArg (fun name => Path.tidy (Path.join d name)) hsame) showCode
  have hr : r = ⟨log.map .log, some (.outputCollision (outputFile d second) first.contract.name
      second.contract.name)⟩ := hlog
  rw [hr]
  exact ⟨rfl, rfl, output_of_log _ _, fun _ tree => executeAll_log tree log⟩

theorem run_of_nodup (henv : env.ReadsFiles) (hd : namedDirectory? directory = some d)
    (hplan : (planned env flags.settings.toOptions contracts aliases).result = .ok steps)
    (hnodup : (steps.map fileName).Nodup) :
    let r := run env ⟨flags, .order contracts aliases showCode directory⟩
    r.failure = none ∧
      ∀ workingDirectory (tree opened : FileTree workingDirectory),
        tree.makeDirectories d = .ok opened →
        (∀ step ∈ steps, ∃ t, opened.writeText (filePath d step) "" = .ok t) →
        ∃ after, executeAll tree r.events = .ok after ∧
          (∀ step ∈ steps, after.readBytes (filePath d step) =
            .ok (step.contract.linkedCode flags.everyOccurrence).toUTF8) ∧
          ∀ place, (∀ step ∈ steps, ¬ opened.Opens (filePath d step) place) →
            ∀ bytes, after.node place = .file bytes ↔ tree.node place = .file bytes := by
  intro r
  have hnames : ∀ step ∈ steps, Path.IsName (fileName step).toList :=
    fun _ => isName_fileName henv hplan
  obtain ⟨silent, hsilent, hrun⟩ :=
    order_of_nodup hd hplan ((nodup_outputFile_iff d hnames).mpr hnodup) showCode
  have hr : r = ⟨silent ++ ((if steps = [] then none else some d).toList.map .makeDirectories ++
      writing (steps.map fun step => (step, some (outputFile d step)))), none⟩ := hrun
  rw [hr]
  refine ⟨rfl, fun _ tree opened hopened hwritable => ?_⟩
  rw [executeAll_append_of_not_writes hsilent]
  by_cases hsteps : steps = []
  · subst hsteps
    exact ⟨tree, rfl, by simp, fun _ _ _ => .rfl⟩
  · have hmake : execute tree (.makeDirectories d) = .ok opened := hopened
    rw [if_neg hsteps, Option.toList_some, List.map_singleton, List.singleton_append,
      executeAll_cons hmake]
    have hopens : ∀ step ∈ steps, ∃ place, opened.Opens (filePath d step) place := by
      intro step hstep
      obtain ⟨t, ht⟩ := hwritable step hstep
      exact FileTree.exists_opens_of_writeText ht
    obtain ⟨base, hbase⟩ := FileTree.exists_locate_of_makeDirectories hopened
    obtain ⟨after, hafter, hread, hkept⟩ := executeAll_writing_of_nodup hnames hbase hopens hnodup
    refine ⟨after, hafter, fun step hstep => ?_, fun place hplace bytes => ?_⟩
    · rw [hread step hstep, (of_mem_planned hplan hstep).1]
      rfl
    · exact (hkept place hplace bytes).trans
        ((FileTree.changesOnly_makeDirectories hopened).file_iff place List.not_mem_nil bytes)

/-- A run that orders contracts and writes them to a directory fails if two of them come from files
of the same name. It then names the first whose file is taken and the one that took it, and has done
nothing. If all names differ, and if the directory can be made, wherever it is, and the files in it
can be opened, every contract has its linked code in the file of its name, and every other file is
as it was. -/
theorem order_writes (henv : env.ReadsFiles) (showCode : Bool)
    (hd : namedDirectory? directory = some d)
    (hplan : (planned env flags.settings.toOptions contracts aliases).result = .ok steps) :
    let r := run env ⟨flags, .order contracts aliases showCode directory⟩
    ((∃ path first second, r.failure = some (.outputCollision path first second)) ↔
      ¬ (steps.map fileName).Nodup) ∧
    (∀ front second back, steps = front ++ second :: back → (front.map fileName).Nodup →
      ∀ first ∈ front, fileName first = fileName second →
        r.failure = some (.outputCollision (Path.tidy (filePath d second)) first.contract.name
          second.contract.name) ∧
        r.status = 1 ∧ r.output = "" ∧
        ∀ workingDirectory (tree : FileTree workingDirectory),
          executeAll tree r.events = .ok tree) ∧
    ((steps.map fileName).Nodup → r.failure = none ∧
      ∀ workingDirectory (tree opened : FileTree workingDirectory),
        tree.makeDirectories d = .ok opened →
        (∀ step ∈ steps, ∃ t, opened.writeText (filePath d step) "" = .ok t) →
        ∃ after, executeAll tree r.events = .ok after ∧
          (∀ step ∈ steps, after.readBytes (filePath d step) =
            .ok (step.contract.linkedCode flags.everyOccurrence).toUTF8) ∧
          ∀ place, (∀ step ∈ steps, ¬ opened.Opens (filePath d step) place) →
            ∀ bytes, after.node place = .file bytes ↔ tree.node place = .file bytes) := by
  intro r
  refine ⟨⟨?_, fun htwice => ?_⟩, ?_, run_of_nodup henv hd hplan⟩
  · rintro ⟨path, first, second, hfailure⟩ hnodup
    exact nomatch hfailure.symm.trans (run_of_nodup henv hd hplan hnodup).1
  · obtain ⟨front, second, back, rfl, hfront, first, hfirst, hsame⟩ := exists_taken htwice
    exact ⟨_, _, _, (run_of_taken henv hd hplan hfront hfirst hsame).1⟩
  · rintro front second back rfl hfront first hfirst hsame
    exact run_of_taken henv hd hplan hfront hfirst hsame

/-- Two contracts that are written, to directories below the working directory, elsewhere and above
it; and two whose files have one name. -/
theorem order_writes_pair :
    let tree : FileTree "/w" := ⟨[(["a", "T.cdc"], some "contract T {}".toUTF8),
      (["b", "T.cdc"], some "".toUTF8),
      (["b", "U.cdc"], some "import T from \"../a/T.cdc\"".toUTF8)]⟩
    let env := environmentOf "/w" (fun _ => "") none tree
    let ordering (contracts : List ContractArgument) (directory : String) :=
      run env ⟨{}, .order contracts [] false (some directory)⟩
    (∀ directory ∈ ["out", "/srv/out", "../out"], ∃ after,
      executeAll tree
        (ordering [⟨"U", "b/U.cdc", "02"⟩, ⟨"T", "a/T.cdc", "01"⟩] directory).events = .ok after ∧
      after.readBytes (Path.join directory "T.cdc") = .ok "contract T {}".toUTF8 ∧
      after.readBytes (Path.join directory "U.cdc") = .ok "import T from 0x01".toUTF8) ∧
    (ordering [⟨"A", "a/T.cdc", "01"⟩, ⟨"B", "b/T.cdc", "02"⟩] "out").failure =
      some (.outputCollision "out/T.cdc" "A" "B") := by
  intro tree env ordering
  have henv : env.ReadsFiles := readsFiles_environmentOf _ _ tree
  let plan (contracts : List ContractArgument) : List Deployment :=
    (planned env {} contracts []).result.toOption.getD []
  constructor
  · have hmade : ∀ directory ∈ ["out", "/srv/out", "../out"], ∃ opened,
        tree.makeDirectories directory = .ok opened ∧ ∀ name ∈ ["T.cdc", "U.cdc"], ∃ t,
          opened.writeText (Path.join directory name) "" = .ok t := by
      simp only [List.forall_mem_cons, List.not_mem_nil, false_implies, implies_true, and_true]
      exact ⟨⟨_, rfl, ⟨_, rfl⟩, _, rfl⟩, ⟨_, rfl, ⟨_, rfl⟩, _, rfl⟩, _, rfl, ⟨_, rfl⟩, _, rfl⟩
    have hnamed : ∀ directory ∈ ["out", "/srv/out", "../out"],
        namedDirectory? (some directory) = some directory := by decide
    intro directory hdirectory
    let contracts : List ContractArgument := [⟨"U", "b/U.cdc", "02"⟩, ⟨"T", "a/T.cdc", "01"⟩]
    have hplan : (planned env ({} : Flags).settings.toOptions contracts []).result =
        .ok (plan contracts) := by decide +kernel
    have hfiles : (plan contracts).map (fun s => (fileName s, s.contract.linkedCode false)) =
        [("T.cdc", "contract T {}"), ("U.cdc", "import T from 0x01")] := by decide +kernel
    obtain ⟨-, -, hwrites⟩ := order_writes henv false (hnamed directory hdirectory) hplan
    obtain ⟨-, hrun⟩ := hwrites (by decide +kernel)
    obtain ⟨t, u, hsteps, ht, hu⟩ := eq_pair_of_map hfiles
    obtain ⟨htname, htcode⟩ := Prod.mk.inj ht
    obtain ⟨huname, hucode⟩ := Prod.mk.inj hu
    rw [hsteps] at hrun
    obtain ⟨opened, hmake, htext⟩ := hmade directory hdirectory
    obtain ⟨after, hafter, hread, -⟩ := hrun _ tree opened hmake <| by
      intro step hstep
      rcases List.mem_pair.mp hstep with rfl | rfl
      · exact htext _ (by rw [htname]; simp)
      · exact htext _ (by rw [huname]; simp)
    refine ⟨after, hafter, ?_, ?_⟩
    · rw [← htname, ← htcode]
      exact hread t (by simp)
    · rw [← huname, ← hucode]
      exact hread u (by simp)
  · let contracts : List ContractArgument := [⟨"A", "a/T.cdc", "01"⟩, ⟨"B", "b/T.cdc", "02"⟩]
    have hplan : (planned env ({} : Flags).settings.toOptions contracts []).result =
        .ok (plan contracts) := by decide +kernel
    have hnames : (plan contracts).map (fun s => (fileName s, s.contract.name)) =
        [("T.cdc", "A"), ("T.cdc", "B")] := by decide +kernel
    have hd : namedDirectory? (some "out") = some "out" := by decide
    obtain ⟨a, b, hsteps, ha, hb⟩ := eq_pair_of_map hnames
    obtain ⟨hafile, haname⟩ := Prod.mk.inj ha
    obtain ⟨hbfile, hbname⟩ := Prod.mk.inj hb
    obtain ⟨-, htaken, -⟩ := order_writes henv false hd hplan
    obtain ⟨hfailure, -⟩ := htaken [a] b [] hsteps (by simp) a List.mem_cons_self
      (hafile.trans hbfile.symm)
    have hpath : Path.tidy (filePath "out" b) = "out/T.cdc" := by
      rw [filePath, hbfile]
      decide
    rwa [hpath, haname, hbname] at hfailure

end

end Command

end ContractLinker
