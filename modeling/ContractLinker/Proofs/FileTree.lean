import ContractLinker.FileTree
import ContractLinker.Proofs.Outcome
import ContractLinker.Proofs.Path.Named
import Mathlib.Data.List.Find

/-!
# What operations change in a file tree

Making directories changes no file, and writing a text to a file changes no other; so a path that
leads somewhere still leads there. A directory that was made can be walked to, from the root and
from the working directory alike. Files that can be opened next to each other can be written one
after the other: `foldlM_writeText`.
-/

namespace ContractLinker.FileTree

variable {workingDirectory : String} {t t' : FileTree workingDirectory} {p q place next : Place}
  {content : Option ByteArray} {path text : String} {rest : List String}

-- ---------------------------------------------------------------------------
-- Entries
-- ---------------------------------------------------------------------------

@[simp] theorem placeOf_root (workingDirectory : String) (p : Place) :
    placeOf workingDirectory ("" :: p) = p := rfl

theorem find?_setEntry_self (t : FileTree workingDirectory) (p : Place)
    (content : Option ByteArray) :
    (t.setEntry p content).entries.find? (fun entry => placeOf workingDirectory entry.1 = p) =
      some ("" :: p, content) := by
  have hnone : (t.entries.filter fun entry => placeOf workingDirectory entry.1 ≠ p).find?
      (fun entry => placeOf workingDirectory entry.1 = p) = none := by
    simp
  rw [setEntry, List.find?_append, hnone]
  simp

theorem find?_setEntry_of_ne (h : q ≠ p) :
    (t.setEntry p content).entries.find? (fun entry => placeOf workingDirectory entry.1 = q) =
      t.entries.find? fun entry => placeOf workingDirectory entry.1 = q := by
  have hsame : (t.entries.filter fun entry => placeOf workingDirectory entry.1 ≠ p).find?
      (fun entry => placeOf workingDirectory entry.1 = q) =
        t.entries.find? fun entry => placeOf workingDirectory entry.1 = q := by
    rw [List.find?_filter]
    refine List.find?_congr fun entry _ => ?_
    by_cases hq : placeOf workingDirectory entry.1 = q
    · simp [hq, h]
    · simp [hq]
  rw [setEntry, List.find?_append, hsame]
  simp [h.symm]

/-- The working directory and those above it are there. -/
theorem node_of_prefix_home (t : FileTree workingDirectory) (h : p <+: home workingDirectory) :
    t.node p = .directory :=
  if_pos (List.isPrefixOf_iff_prefix.mpr h)

theorem not_prefix_home (h : t.node p ≠ .directory) :
    ¬ p.isPrefixOf (home workingDirectory) = true := fun hp =>
  h (t.node_of_prefix_home (List.isPrefixOf_iff_prefix.mp hp))

theorem node_setEntry_file (h : t.node p ≠ .directory) (bytes : ByteArray) :
    (t.setEntry p (some bytes)).node p = .file bytes := by
  rw [node, if_neg (not_prefix_home h), find?_setEntry_self]

theorem node_setEntry_directory (t : FileTree workingDirectory) (p : Place) :
    (t.setEntry p none).node p = .directory := by
  rw [node, find?_setEntry_self]
  split <;> rfl

theorem any_entries_setEntry :
    (t.setEntry p content).entries.any (fun entry =>
        q.isPrefixOf (placeOf workingDirectory entry.1)) =
      (t.entries.any (fun entry => q.isPrefixOf (placeOf workingDirectory entry.1)) ||
        q.isPrefixOf p) := by
  rw [Bool.eq_iff_iff]
  simp only [setEntry, List.any_append, Bool.or_eq_true, List.any_eq_true, List.mem_filter,
    List.mem_singleton, exists_eq_left, decide_eq_true_eq, placeOf_root]
  constructor
  · rintro (⟨entry, ⟨hmem, -⟩, hq⟩ | hq)
    · exact .inl ⟨entry, hmem, hq⟩
    · exact .inr hq
  · rintro (⟨entry, hmem, hq⟩ | hq)
    · by_cases hp : placeOf workingDirectory entry.1 = p
      · exact .inr (hp ▸ hq)
      · exact .inl ⟨entry, ⟨hmem, hp⟩, hq⟩
    · exact .inr hq

/-- A new entry changes nothing elsewhere, but that nothing on the way to it is missing any more. -/
theorem node_setEntry_of_ne (h : q ≠ p) :
    (t.setEntry p content).node q = t.node q ∨
      t.node q = .nothing ∧ (t.setEntry p content).node q = .directory ∧ q <+: p := by
  unfold node
  rw [find?_setEntry_of_ne h, any_entries_setEntry]
  split
  · exact .inl rfl
  split
  · exact .inl rfl
  · exact .inl rfl
  · by_cases hq : q <+: p
    · have hcond : (t.entries.any (fun entry => q.isPrefixOf (placeOf workingDirectory entry.1)) ||
          q.isPrefixOf p) = true := by simp [hq]
      rw [if_pos hcond]
      split
      · exact .inl rfl
      · exact .inr ⟨rfl, rfl, hq⟩
    · have hfalse : q.isPrefixOf p = false := by
        simpa [← List.isPrefixOf_iff_prefix] using hq
      rw [hfalse, Bool.or_false]
      exact .inl rfl

theorem node_setEntry_eq_file_iff (h : q ≠ p) (bytes : ByteArray) :
    (t.setEntry p content).node q = .file bytes ↔ t.node q = .file bytes := by
  rcases node_setEntry_of_ne h with he | ⟨hold, hnew, -⟩
  · rw [he]
  · simp [hold, hnew]

theorem node_setEntry_eq_directory (h : q ≠ p) (hq : t.node q = .directory) :
    (t.setEntry p content).node q = .directory := by
  rcases node_setEntry_of_ne h with he | ⟨-, hnew, -⟩
  · rw [he, hq]
  · exact hnew

-- ---------------------------------------------------------------------------
-- Changes
-- ---------------------------------------------------------------------------

/-- A later tree has the directories of an earlier one, and its files apart from some places. -/
structure ChangesOnly (places : List Place) (t t' : FileTree workingDirectory) : Prop where
  file_iff : ∀ q ∉ places, ∀ bytes, t'.node q = .file bytes ↔ t.node q = .file bytes
  directory : ∀ q, t.node q = .directory → t'.node q = .directory

theorem ChangesOnly.refl (t : FileTree workingDirectory) : ChangesOnly [] t t :=
  ⟨fun _ _ _ => .rfl, fun _ h => h⟩

theorem ChangesOnly.trans {ps qs : List Place} {t'' : FileTree workingDirectory}
    (h : ChangesOnly ps t t') (h' : ChangesOnly qs t' t'') : ChangesOnly (ps ++ qs) t t'' := by
  refine ⟨fun q hq bytes => ?_, fun q hq => h'.directory q (h.directory q hq)⟩
  rw [List.mem_append, not_or] at hq
  exact (h'.file_iff q hq.2 bytes).trans (h.file_iff q hq.1 bytes)

theorem changesOnly_setEntry_directory (h : t.node p = .nothing) :
    ChangesOnly [] t (t.setEntry p none) := by
  constructor
  · intro q _ bytes
    by_cases hq : q = p
    · simp [hq, node_setEntry_directory, h]
    · exact node_setEntry_eq_file_iff hq bytes
  · intro q hq
    by_cases he : q = p
    · rw [he, node_setEntry_directory]
    · exact node_setEntry_eq_directory he hq

theorem changesOnly_setEntry_file (h : t.node p ≠ .directory) (bytes : ByteArray) :
    ChangesOnly [p] t (t.setEntry p (some bytes)) := by
  constructor
  · exact fun q hq => node_setEntry_eq_file_iff (List.mem_singleton.not.mp hq)
  · exact fun q hq => node_setEntry_eq_directory (fun he => h (he ▸ hq)) hq

theorem changesOnly_makeDirectoriesFrom {made : Bool}
    (h : t.makeDirectoriesFrom made place rest = .ok t') : ChangesOnly [] t t' := by
  induction rest generalizing t made place with
  | nil =>
    cases h
    exact .refl _
  | cons segment rest ih =>
    rw [makeDirectoriesFrom] at h
    obtain ⟨next, -, h⟩ := bind_eq_ok.mp h
    split at h
    · cases h
    · next hnode => exact (changesOnly_setEntry_directory hnode).trans (ih h)
    · exact ih h

theorem changesOnly_makeDirectories (h : t.makeDirectories path = .ok t') :
    ChangesOnly [] t t' := by
  obtain ⟨_, -, h⟩ := bind_eq_ok.mp h
  exact changesOnly_makeDirectoriesFrom h

-- ---------------------------------------------------------------------------
-- Walks
-- ---------------------------------------------------------------------------

theorem walk_cons_eq_ok_iff {segment : String} :
    t.walk place (segment :: rest) = .ok next ↔ t.node place = .directory ∧
      ∃ mid, enter place segment = .ok mid ∧ t.walk mid rest = .ok next := by
  rw [walk]
  cases t.node place with
  | nothing => simp
  | file bytes => simp
  | directory => simpa using bind_eq_ok

/-- A walk only asks for directories. -/
theorem ChangesOnly.walk {ps : List Place} (h : ChangesOnly ps t t')
    (hw : t.walk place rest = .ok next) : t'.walk place rest = .ok next := by
  induction rest generalizing place with
  | nil => exact hw
  | cons segment rest ih =>
    obtain ⟨hnode, p, hp, hrest⟩ := walk_cons_eq_ok_iff.mp hw
    exact walk_cons_eq_ok_iff.mpr ⟨h.directory place hnode, p, hp, ih hrest⟩

theorem walk_append_eq_ok_iff {front back : List String} :
    t.walk place (front ++ back) = .ok next ↔
      ∃ p, t.walk place front = .ok p ∧ t.walk p back = .ok next := by
  induction front generalizing place with
  | nil => simp [walk]
  | cons segment front ih =>
    simp only [List.cons_append, walk_cons_eq_ok_iff, ih]
    constructor
    · rintro ⟨hnode, p, hp, q, hq, hrest⟩
      exact ⟨q, ⟨hnode, p, hp, hq⟩, hrest⟩
    · rintro ⟨q, ⟨hnode, p, hp, hq⟩, hrest⟩
      exact ⟨hnode, p, hp, q, hq, hrest⟩

theorem enter_eq_ok {segment : String} (h : enter place segment = .ok next) :
    segment = ".." ∧ next = place.dropLast ∨ segment ≠ ".." ∧ next = place ++ [segment] := by
  unfold enter at h
  split at h
  · next hparent =>
    cases h
    exact .inl ⟨hparent, rfl⟩
  · next hparent =>
    split at h
    · cases h
    · cases h
      exact .inr ⟨hparent, rfl⟩

/-- Directories that were made can be walked. -/
theorem exists_walk_of_makeDirectoriesFrom {made : Bool} (hplace : t.node place = .directory)
    (h : t.makeDirectoriesFrom made place rest = .ok t') :
    ∃ last, t'.walk place rest = .ok last := by
  induction rest generalizing t made place with
  | nil => exact ⟨place, rfl⟩
  | cons segment rest ih =>
    have hthere := (changesOnly_makeDirectoriesFrom h).directory place hplace
    rw [makeDirectoriesFrom] at h
    obtain ⟨next, henter, h⟩ := bind_eq_ok.mp h
    have hnext : ∃ last, t'.walk next rest = .ok last := by
      split at h
      · cases h
      · exact ih (node_setEntry_directory t next) h
      · next hnode => exact ih hnode h
    obtain ⟨last, hlast⟩ := hnext
    exact ⟨last, walk_cons_eq_ok_iff.mpr ⟨hthere, next, henter, hlast⟩⟩

/-- A place with directories all the way to it. -/
def Reached (t : FileTree workingDirectory) (place : Place) : Prop :=
  ∀ q, q <+: place → q ≠ place → t.node q = .directory

theorem Reached.node_dropLast (h : t.Reached place) : t.node place.dropLast = .directory := by
  rcases List.eq_nil_or_concat place with rfl | ⟨base, name, rfl⟩
  · exact t.node_of_prefix_home List.nil_prefix
  · refine h _ (List.dropLast_prefix _) ?_
    simp

theorem Reached.dropLast (h : t.Reached place) : t.Reached place.dropLast := by
  intro q hq hne
  refine h q (hq.trans (List.dropLast_prefix place)) ?_
  rintro rfl
  have hlength := hq.length_le
  rw [List.length_dropLast] at hlength
  have hnil : q = [] := List.eq_nil_of_length_eq_zero (by omega)
  exact hne (by rw [hnil]; rfl)

theorem Reached.concat (h : t.Reached place) (hplace : t.node place = .directory) (name : String) :
    t.Reached (place ++ [name]) := by
  intro q hq hne
  rcases List.prefix_concat_iff.mp hq with rfl | hq
  · exact absurd rfl hne
  · by_cases he : q = place
    · rw [he, hplace]
    · exact h q hq he

theorem Reached.walk (h : t.Reached place) (hw : t.walk place rest = .ok next) :
    t.Reached next := by
  induction rest generalizing place with
  | nil =>
    cases hw
    exact h
  | cons segment rest ih =>
    obtain ⟨hnode, mid, hmid, hrest⟩ := walk_cons_eq_ok_iff.mp hw
    rcases enter_eq_ok hmid with ⟨-, rfl⟩ | ⟨-, rfl⟩
    · exact ih h.dropLast hrest
    · exact ih (h.concat hnode segment) hrest

theorem startOf_prefix_home (workingDirectory : String) (absolute : Bool) :
    startOf workingDirectory absolute <+: home workingDirectory := by
  unfold startOf
  split
  · exact List.nil_prefix
  · exact List.prefix_rfl

theorem reached_startOf (t : FileTree workingDirectory) (absolute : Bool) :
    t.Reached (startOf workingDirectory absolute) := fun _ hq _ =>
  t.node_of_prefix_home (hq.trans (startOf_prefix_home workingDirectory absolute))

-- ---------------------------------------------------------------------------
-- Routes
-- ---------------------------------------------------------------------------

theorem route_eq (path : String) : route path =
    (decide (Path.rootOf path.toList ≠ []), (Path.followed path.toList).map String.ofList) := rfl

theorem route_join (directory : String) {name : String} (h : Path.IsName name.toList) :
    route (Path.join directory name) = ((route directory).1, (route directory).2 ++ [name]) := by
  rw [route_eq, route_eq, Path.join, String.toList_ofList, Path.rootOf_joinChars h.head?_ne,
    Path.followed_joinChars _ h.head?_ne, h.followed]
  simp

theorem route_tidy (path : String) : route (Path.tidy path) = route path := by
  obtain ⟨hroot, hfollowed⟩ := Path.followed_tidy path
  rw [route_eq, route_eq, hroot, hfollowed]

theorem eq_route {found : Bool × List String} (h : routeWithin path = .ok found) :
    found = route path := by
  unfold routeWithin at h
  split at h
  · cases h
  · cases h
    rfl

theorem walk_of_locate (h : t.locate path = .ok place) :
    t.walk (startOf workingDirectory (route path).1) (route path).2 = .ok place := by
  obtain ⟨found, hroute, h⟩ := bind_eq_ok.mp h
  rw [← eq_route hroute]
  exact h

theorem locate_tidy (t : FileTree workingDirectory) (path : String) :
    t.locate (Path.tidy path) = t.locate path := by
  rw [locate, locate, routeWithin, routeWithin, Path.tidy_tidy, route_tidy]

theorem writeText_tidy (t : FileTree workingDirectory) (path text : String) :
    t.writeText (Path.tidy path) text = t.writeText path text := by
  rw [writeText, writeText, locate_tidy]

theorem ChangesOnly.locate {ps : List Place} (h : ChangesOnly ps t t')
    (hp : t.locate path = .ok place) : t'.locate path = .ok place := by
  obtain ⟨found, hroute, hwalk⟩ := bind_eq_ok.mp hp
  exact bind_eq_ok.mpr ⟨found, hroute, h.walk hwalk⟩

/-- A directory that was made is somewhere. -/
theorem exists_locate_of_makeDirectories (h : t.makeDirectories path = .ok t') :
    ∃ place, t'.locate path = .ok place := by
  obtain ⟨found, hroute, h⟩ := bind_eq_ok.mp h
  have hstart := t.node_of_prefix_home (startOf_prefix_home workingDirectory found.1)
  obtain ⟨place, hwalk⟩ := exists_walk_of_makeDirectoriesFrom hstart h
  exact ⟨place, bind_eq_ok.mpr ⟨found, hroute, hwalk⟩⟩

/-- Whatever can be read has a name: all else is a directory. -/
theorem named_of_readBytes {bytes : ByteArray} (h : t.readBytes path = .ok bytes) :
    Path.Named path := by
  obtain ⟨place, hplace, h⟩ := bind_eq_ok.mp h
  have hfile : t.node place ≠ .directory := by
    intro he
    rw [he] at h
    cases h
  have hwalk := walk_of_locate hplace
  rcases List.eq_nil_or_concat (Path.followed path.toList) with hnil | ⟨names, s, hs⟩
  · refine absurd ?_ hfile
    rw [route_eq, hnil] at hwalk
    cases hwalk
    exact t.node_of_prefix_home (startOf_prefix_home _ _)
  · refine ⟨s, by simp [hs], ?_⟩
    rintro rfl
    rw [show (route path).2 = names.map String.ofList ++ [".."] by simp [route_eq, hs]; rfl]
      at hwalk
    obtain ⟨mid, hmid, hlast⟩ := walk_append_eq_ok_iff.mp hwalk
    obtain ⟨-, next, hnext, hend⟩ := walk_cons_eq_ok_iff.mp hlast
    cases hend
    rcases enter_eq_ok hnext with ⟨-, rfl⟩ | ⟨hne, -⟩
    · exact hfile ((t.reached_startOf _).walk hmid).node_dropLast
    · exact hne rfl

-- ---------------------------------------------------------------------------
-- Writing files
-- ---------------------------------------------------------------------------

/-- A path can be opened for writing, as the file at some place. -/
def Opens (t : FileTree workingDirectory) (path : String) (place : Place) : Prop :=
  t.locate path = .ok place ∧ t.node place ≠ .directory

theorem Opens.writeText (h : t.Opens path p) (text : String) :
    t.writeText path text = .ok (t.setEntry p (some text.toUTF8)) := by
  obtain ⟨hplace, hnode⟩ := h
  refine bind_eq_ok.mpr ⟨p, hplace, ?_⟩
  split
  · next he => exact absurd he hnode
  · rfl

theorem exists_opens_of_writeText (h : t.writeText path text = .ok t') : ∃ p, t.Opens path p := by
  obtain ⟨place, hplace, h⟩ := bind_eq_ok.mp h
  split at h
  · cases h
  · next hnode => exact ⟨place, hplace, hnode⟩

theorem readBytes_of_node {bytes : ByteArray} {ps : List Place} (h : t.Opens path p)
    (ht : ChangesOnly ps t t') (hp : t'.node p = .file bytes) : t'.readBytes path = .ok bytes := by
  refine bind_eq_ok.mpr ⟨p, ht.locate h.1, ?_⟩
  rw [hp]

theorem Opens.setEntry {bytes : ByteArray} (h : t.Opens path p) (hq : t.node q ≠ .directory)
    (hpq : p <+: q → p = q) : (t.setEntry q (some bytes)).Opens path p := by
  refine ⟨(changesOnly_setEntry_file hq bytes).locate h.1, ?_⟩
  by_cases he : p = q
  · rw [he, node_setEntry_file hq]
    exact Node.noConfusion
  · rcases node_setEntry_of_ne he with hsame | ⟨-, -, hprefix⟩
    · rw [hsame]
      exact h.2
    · exact absurd (hpq hprefix) he

/-- What a path without a way up at its end can be opened as lies where the path before leads. -/
theorem Opens.eq_append {absolute : Bool} {front : List String} {segment : String}
    (h : t.Opens path p) (hroute : route path = (absolute, front ++ [segment]))
    (hparent : segment ≠ "..") :
    ∃ base, t.walk (startOf workingDirectory absolute) front = .ok base ∧
      p = base ++ [segment] := by
  have hwalk := walk_of_locate h.1
  rw [hroute] at hwalk
  obtain ⟨base, hbase, hlast⟩ := walk_append_eq_ok_iff.mp hwalk
  obtain ⟨-, next, henter, hnext⟩ := walk_cons_eq_ok_iff.mp hlast
  cases hnext
  rcases enter_eq_ok henter with ⟨he, -⟩ | ⟨-, he⟩
  · exact absurd he hparent
  · exact ⟨base, hbase, he⟩

/-- Files that lie next to each other can be written one after the other. -/
theorem foldlM_writeText {α : Type} {rows : List α} {path : α → String} {file : α → Place}
    (text : α → String) (hopens : ∀ row ∈ rows, t.Opens (path row) (file row))
    (hapart : rows.Pairwise fun row other =>
      ¬ file row <+: file other ∧ ¬ file other <+: file row) :
    ∃ t', rows.foldlM (fun t row => t.writeText (path row) (text row)) t = .ok t' ∧
      (∀ row ∈ rows, t'.node (file row) = .file (text row).toUTF8) ∧
      ChangesOnly (rows.map file) t t' := by
  induction rows generalizing t with
  | nil => exact ⟨t, rfl, by simp, .refl t⟩
  | cons row rows ih =>
    obtain ⟨hrow, hrows⟩ := List.forall_mem_cons.mp hopens
    obtain ⟨hfirst, hrest⟩ := List.pairwise_cons.mp hapart
    have hnode := hrow.2
    have hnext : ∀ other ∈ rows,
        (t.setEntry (file row) (some (text row).toUTF8)).Opens (path other) (file other) :=
      fun other hother => (hrows other hother).setEntry hnode fun hp =>
        absurd hp (hfirst other hother).2
    obtain ⟨t', hok, hfiles, hchanges⟩ := ih hnext hrest
    refine ⟨t', ?_, ?_, (changesOnly_setEntry_file hnode _).trans hchanges⟩
    · rw [List.foldlM_cons, hrow.writeText]
      exact hok
    · refine List.forall_mem_cons.mpr ⟨?_, hfiles⟩
      refine (hchanges.file_iff (file row) ?_ _).mpr (node_setEntry_file hnode _)
      intro hmem
      obtain ⟨other, hother, he⟩ := List.mem_map.mp hmem
      exact (hfirst other hother).1 (he ▸ List.prefix_refl _)

end ContractLinker.FileTree
