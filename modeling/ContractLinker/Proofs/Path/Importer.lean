import ContractLinker.Proofs.Path.Named
import ContractLinker.Proofs.Registration
import ContractLinker.Proofs.Script
import ContractLinker.Proofs.Text.Trim

/-!
# The directory that imports are read against

The directory of a path is cut off before anything is cleaned. Where the path ends in a name, that
makes no difference: `settle_directoryChars` says that following such a path is following its
directory and then the name, so cleaning the path cleans its directory. `locate_clean_importer`
draws the conclusion for imports.
-/

namespace ContractLinker.Path

variable {path head slashes : List Char}

-- ---------------------------------------------------------------------------
-- The directory of a path
-- ---------------------------------------------------------------------------

theorem isName_lastSegmentChars (h : lastSegmentChars path ∉ [[], here, parent]) :
    IsName (lastSegmentChars path) := by
  simp only [List.mem_cons, List.not_mem_nil, or_false, not_or] at h
  refine ⟨h.1, h.2.1, h.2.2, fun hslash => ?_⟩
  simpa using List.mem_takeWhile_imp (List.mem_reverse.mp hslash)

/-- A path ends in its last segment, which follows a slash or nothing. -/
theorem joinChars_lastSegment (h : IsName (lastSegmentChars path)) :
    joinChars (Text.dropTrailing (· ≠ '/') path) (lastSegmentChars path) = path := by
  have hfront : Text.dropTrailing (· ≠ '/') path = [] ∨
      (Text.dropTrailing (· ≠ '/') path).getLast? = some '/' := by
    obtain ⟨-, -, -, hstop⟩ := Text.dropTrailing_cut (· ≠ '/') path
    cases hlast : (Text.dropTrailing (· ≠ '/') path).getLast? with
    | none => exact .inl (List.getLast?_eq_none_iff.mp hlast)
    | some c => exact .inr (by simpa using hstop c hlast)
  rw [joinChars, if_neg h.head?_ne, if_pos hfront, lastSegmentChars, Text.dropTrailing,
    ← List.reverse_append, List.takeWhile_append_dropWhile, List.reverse_reverse]

theorem followed_append_slashes (path : List Char) (h : ∀ c ∈ slashes, c = '/') :
    followed (path ++ slashes) = followed path := by
  induction slashes generalizing path with
  | nil => rw [List.append_nil]
  | cons c slashes ih =>
    obtain rfl := h c List.mem_cons_self
    have hnil : followed [] = [] := by decide
    rw [List.append_cons, ih _ fun d hd => h d (List.mem_cons_of_mem _ hd), followed_append_slash,
      hnil, List.append_nil]

/-- Slashes at the end of a path do not count, unless they are all that there is. -/
theorem followed_dropTrailingSlashes (h : dropTrailingSlashes head ≠ []) :
    rootOf (dropTrailingSlashes head) = rootOf head ∧
      followed (dropTrailingSlashes head) = followed head := by
  obtain ⟨slashes, hhead, hslashes, hlast⟩ := Text.dropTrailing_cut (· = '/') head
  rw [← dropTrailingSlashes] at hhead hlast
  constructor
  · conv_rhs => rw [hhead]
    exact (rootOf_append h fun hs => absurd (hlast _ hs) (by decide)).symm
  · conv_rhs => rw [hhead]
    exact (followed_append_slashes _ (by simpa using hslashes)).symm

/-- The directory of a path has the root of the path, and all its segments but the name at its
end. -/
theorem followed_directoryChars (h : IsName (lastSegmentChars path)) :
    rootOf (directoryChars path) = rootOf path ∧
      followed path = followed (directoryChars path) ++ [lastSegmentChars path] := by
  have hjoin := joinChars_lastSegment h
  have hroot : rootOf path = rootOf (Text.dropTrailing (· ≠ '/') path) := by
    conv_lhs => rw [← hjoin]
    exact rootOf_joinChars h.head?_ne
  have hpath : followed path =
      followed (Text.dropTrailing (· ≠ '/') path) ++ [lastSegmentChars path] := by
    conv_lhs => rw [← hjoin]
    rw [followed_joinChars _ h.head?_ne, h.followed]
  rw [hroot, hpath, directoryChars]
  cases hd : dropTrailingSlashes (Text.dropTrailing (· ≠ '/') path) with
  | nil => exact ⟨rfl, rfl⟩
  | cons c directory =>
    obtain ⟨hr, hf⟩ := followed_dropTrailingSlashes (hd ▸ List.cons_ne_nil c directory)
    rw [← hr, ← hf, hd]
    exact ⟨rfl, rfl⟩

-- ---------------------------------------------------------------------------
-- The directory of a clean path
-- ---------------------------------------------------------------------------

/-- A path leads to the name at its end, in the directory to which its directory leads. -/
theorem settle_directoryChars (h : IsName (lastSegmentChars path)) (rooted : Bool) :
    settle rooted (pieces path) =
      settle rooted (pieces (directoryChars path)) ++ [lastSegmentChars path] := by
  rw [settle, settle, ← foldl_follow_followed, ← foldl_follow_followed,
    (followed_directoryChars h).2, List.foldl_concat, follow_down h.ne_nil h.ne_here h.ne_parent,
    List.reverse_cons]

theorem cleanChars_of_rootOf {root : List Char} (h : rootOf path = root) :
    cleanChars path = print root (settle (!root.isEmpty) (pieces path)) := by
  rw [cleanChars, h]

theorem cleanChars_directoryChars (h : IsName (lastSegmentChars path)) :
    cleanChars (directoryChars (cleanChars path)) = cleanChars (directoryChars path) := by
  have hlast : lastSegmentChars (cleanChars path) = lastSegmentChars path :=
    lastSegmentChars_cleanChars (followed_directoryChars h).2 h.ne_parent
  have hclean : IsName (lastSegmentChars (cleanChars path)) := hlast ▸ h
  have hroot : rootOf (directoryChars (cleanChars path)) = rootOf path := by
    rw [(followed_directoryChars hclean).1, rootOf_cleanChars]
  have hsettle := settle_pieces_cleanChars path
  rw [settle_directoryChars h, settle_directoryChars hclean, hlast, List.append_left_inj] at hsettle
  rw [cleanChars_of_rootOf hroot, cleanChars_of_rootOf (followed_directoryChars h).1, hsettle]

theorem locate_clean {path : String} (h : IsName (lastSegmentChars path.toList))
    (location : String) : locate (clean path) location = locate path location := by
  simp only [locate, clean, join, directory, String.toList_ofList]
  rw [← cleanChars_joinChars, cleanChars_directoryChars h, cleanChars_joinChars]

theorem locate_of_absolute {location : String} (h : location.toList.head? = some '/')
    (path : String) : locate path location = clean location := by
  rw [locate, join, joinChars, if_pos h, String.ofList_toList]

-- ---------------------------------------------------------------------------
-- Importers
-- ---------------------------------------------------------------------------

variable {options : Options} {aliases : AliasTable} {set : WorkingSet} {c : Contract}
  {targets : Table String Address}

/-- A location is looked up alike for a contract and for a script, if both lead it to one place. -/
theorem toOption_resolveLocation {path location : String} (s : Script)
    (h : locate c.path location = locate path location)
    (ht : ∀ path, targets.get? path = (set.contractAt? path).map (·.target)) :
    (s.resolveLocation options path targets aliases location).toOption =
      ((c.lookup options aliases set location).map Link.target).toOption := by
  simp only [Script.resolveLocation, Contract.lookup, h, ht]
  cases set.contractAt? (locate path location) with
  | some d => rfl
  | none =>
    cases aliases.get? (aliasKey options.extensions location) with
    | none => rfl
    | some text =>
      cases ha : Address.parse text <;> simp [ha, Except.map, Except.toOption, Link.target]

/-- Cleaning the path of an importer moves none of its imports, if the path ends in a name. So a
contract, which is registered under the clean path, and a script, which is resolved under the path
as it is given, find the same at each location. -/
theorem locate_clean_importer (path : String) (h : lastSegment path ∉ ["", ".", ".."]) :
    (∀ location, locate (clean path) location = locate path location) ∧
    (∀ location, location.toList.head? = some '/' →
      locate (clean path) location = clean location ∧ locate path location = clean location) ∧
    ∀ (set : WorkingSet) (c : Contract) name target source, set.Sourced →
      c.MadeFrom name path target source →
      ∃ targets, Script.targetsOf set.targetTable.entries = .ok targets ∧
        ∀ (options : Options) (aliases : AliasTable) (s : Script) (location : String),
          (s.resolveLocation options path targets aliases location).toOption =
            ((c.lookup options aliases set location).map Link.target).toOption := by
  have hname : IsName (lastSegmentChars path.toList) := by
    have htexts : ["", ".", ".."] = [[], here, parent].map String.ofList := by decide +kernel
    exact isName_lastSegmentChars fun hmem => h (htexts ▸ List.mem_map_of_mem hmem)
  refine ⟨locate_clean hname, fun location hl =>
    ⟨locate_of_absolute hl _, locate_of_absolute hl _⟩, fun set c name target source hs hc =>
    ⟨_, hs.targetsOf, fun options aliases s location => ?_⟩⟩
  exact toOption_resolveLocation s (hc.path_eq ▸ locate_clean hname location) hs.get?_targets

/-- What ends in no name is itself a directory to cleaning, but not to its imports. -/
example : locate "lib/.." "T.cdc" = "lib/T.cdc" ∧ locate (clean "lib/..") "T.cdc" = "T.cdc" := by
  decide +kernel

/-- A contract is registered from a path with a detour. Under that path a script finds what the
contract finds under its clean one. -/
theorem locate_clean_importer_detour :
    let path := "lib/../Main.cdc"
    clean path = "Main.cdc" ∧ locate (clean path) "./T.cdc" = locate path "./T.cdc" ∧
      locate path "/a/../T.cdc" = "/T.cdc" ∧
      ∃ (set : WorkingSet) (c : Contract) (targets : Table String Address),
        set.Sourced ∧ c ∈ set.registered ∧ c.path = clean path ∧
        Script.targetsOf set.targetTable.entries = .ok targets ∧
        ∀ (options : Options) (aliases : AliasTable) (s : Script),
          (s.resolveLocation options path targets aliases "./T.cdc").toOption = some ⟨[1]⟩ := by
  intro path
  obtain ⟨hsame, habsolute, hfind⟩ := locate_clean_importer path (by decide +kernel)
  let line (n m : Nat) : Span := ⟨⟨1, n⟩, ⟨1, m⟩⟩
  let token : Contract := ⟨0, "T", "T.cdc", ⟨[1]⟩, "", ⟨[], line 1 1, "T.cdc"⟩⟩
  let main : Contract := ⟨1, "Main", "Main.cdc", ⟨[2]⟩, "import \"./T.cdc\"",
    ⟨[⟨[], .quoted "./T.cdc", line 1 17⟩], line 1 17, path⟩⟩
  let set : WorkingSet := ⟨[token.unlinked, main.unlinked], false⟩
  have hparse : Program.parse "T.cdc" "" = .ok token.program ∧
      Program.parse path main.code = .ok main.program := by decide +kernel
  have hsourced : set.Sourced := by
    refine ⟨by decide +kernel, by decide +kernel, by decide +kernel, ?_⟩
    simp only [WorkingSet.registered, set, List.map_cons, List.map_nil, List.forall_mem_cons,
      List.not_mem_nil, false_imp_iff, implies_true, and_true]
    exact ⟨⟨_, hparse.1⟩, _, hparse.2⟩
  have hmade : main.MadeFrom "Main" path "02" (.ok main.code) :=
    ⟨rfl, by decide +kernel, by decide +kernel, rfl, hparse.2⟩
  obtain ⟨targets, htargets, hall⟩ := hfind set main "Main" "02" _ hsourced hmade
  have hclean : clean "/a/../T.cdc" = "/T.cdc" := by decide +kernel
  have hlookup : ∀ options aliases, main.lookup options aliases set "./T.cdc" =
      .ok (.contract token) := fun options aliases =>
    Contract.lookup_of_contractAt? (by decide +kernel)
  refine ⟨hmade.path_eq.symm, hsame _, (habsolute _ (by decide +kernel)).2.trans hclean, set, main,
    targets, hsourced, by decide +kernel, hmade.path_eq, htargets, fun options aliases s => ?_⟩
  rw [hall, hlookup]
  rfl

end ContractLinker.Path
