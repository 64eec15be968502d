import ContractLinker.Command.Aliases
import ContractLinker.Proofs.Outcome
import ContractLinker.Proofs.Path
import ContractLinker.Proofs.Table
import ContractLinker.Proofs.Text.Trim

/-!
# The aliases that a text lists

The text of the variable is cut at its commas. `Lists` says what the entries between them list:
blank ones nothing, the others a key and an address, parted at the first `=` and trimmed, and
neither of them blank. `Malformed` entries are all others. `aliasTable_reads` holds the reader to
this, and to the precedence of the pairs that come after the text; and a table that is written as
such a text, with any blanks, is read back.
-/

namespace ContractLinker.Command

open Text (Blank Trimmed trim)

variable {entry key address : List Char} {entries : List (List Char)}
  {listed rows : List (String × String)} {f : Failure}

-- ---------------------------------------------------------------------------
-- Entries
-- ---------------------------------------------------------------------------

/-- The entries of a text stand between its commas. -/
structure IsCut (text : List Char) (entries : List (List Char)) : Prop where
  text_eq : text = List.intercalate [','] entries
  ne_nil : entries ≠ []
  not_mem : ∀ e ∈ entries, ',' ∉ e

/-- An entry without `=`, or with nothing but blanks on a side of the first one. -/
def Malformed (entry : List Char) : Prop :=
  ¬ Blank entry ∧ ('=' ∉ entry ∨ ∃ key address, entry = key ++ '=' :: address ∧ '=' ∉ key ∧
    (Blank key ∨ Blank address))

/-- What entries list, none of which is malformed. -/
inductive Lists : List (List Char) → List (String × String) → Prop
  | nil : Lists [] []
  | blank {entry : List Char} {entries : List (List Char)} {rows : List (String × String)} :
      Blank entry → Lists entries rows → Lists (entry :: entries) rows
  | row {key address : List Char} {entries : List (List Char)} {rows : List (String × String)} :
      '=' ∉ key → ¬ Blank key → ¬ Blank address → Lists entries rows →
      Lists ((key ++ '=' :: address) :: entries)
        ((String.ofList (trim key), String.ofList (trim address)) :: rows)

theorem isCut_iff {text : List Char} : IsCut text entries ↔ Text.split ',' text = entries := by
  constructor
  · rintro ⟨rfl, hne, hmem⟩
    exact Text.split_intercalate hmem hne
  · rintro rfl
    exact ⟨(Text.intercalate_split ',' text).symm, Text.split_ne_nil ',' text,
      fun e he => Text.not_mem_of_mem_split he⟩

theorem entry_cases (entry : List Char) : Blank entry ∨ Malformed entry ∨
    ∃ key address, entry = key ++ '=' :: address ∧ '=' ∉ key ∧ ¬ Blank key ∧ ¬ Blank address := by
  by_cases hb : Blank entry
  · exact .inl hb
  · by_cases hmem : '=' ∈ entry
    · obtain ⟨key, address, rfl, hkey⟩ := List.eq_append_cons_of_mem hmem
      by_cases hside : Blank key ∨ Blank address
      · exact .inr (.inl ⟨hb, .inr ⟨key, address, rfl, hkey, hside⟩⟩)
      · rw [not_or] at hside
        exact .inr (.inr ⟨key, address, rfl, hkey, hside⟩)
    · exact .inr (.inl ⟨hb, .inl hmem⟩)

-- ---------------------------------------------------------------------------
-- Reading an entry
-- ---------------------------------------------------------------------------

theorem isBlank_equals : Text.isBlank '=' = false := by decide

theorem takeWhile_of_not_mem (h : '=' ∉ key) (rest : List Char) :
    (key ++ '=' :: rest).takeWhile (· ≠ '=') = key ∧
      (key ++ '=' :: rest).dropWhile (· ≠ '=') = '=' :: rest := by
  have hkey : ∀ c ∈ key, decide (c ≠ '=') = true := fun c hc =>
    decide_eq_true fun he => h (he ▸ hc)
  rw [List.takeWhile_append_of_pos hkey, List.dropWhile_append_of_pos hkey]
  simp

/-- An entry is parted as it stands; what is trimmed off it does not matter. -/
theorem entryOf?_trim (h : '=' ∉ key) : entryOf? (trim (key ++ '=' :: address)) =
    if trim key = [] ∨ trim address = [] then none
    else some (String.ofList (trim key), String.ofList (trim address)) := by
  have hdrop : '=' ∉ key.dropWhile Text.isBlank := fun hmem =>
    h ((List.dropWhile_sublist _).subset hmem)
  obtain ⟨htake, hrest⟩ := takeWhile_of_not_mem hdrop (Text.dropTrailing Text.isBlank address)
  rw [Text.trim_append_cons _ _ isBlank_equals, entryOf?, hrest, htake]
  simp only [Text.trim_dropWhile, Text.trim_dropTrailing]

theorem entryOf?_of_not_mem (h : '=' ∉ entry) : entryOf? entry = none := by
  have hall : entry.dropWhile (· ≠ '=') = [] :=
    List.dropWhile_eq_nil_iff.mpr fun c hc => decide_eq_true fun he => h (he ▸ hc)
  rw [entryOf?, hall]

theorem entryOf?_of_malformed (h : Malformed entry) : entryOf? (trim entry) = none := by
  obtain ⟨-, hmem | ⟨key, address, rfl, hkey, hside⟩⟩ := h
  · refine entryOf?_of_not_mem fun hin => hmem ?_
    obtain ⟨front, back, -, -, he⟩ := Text.exists_trim entry
    rw [he]
    simp [hin]
  · rw [entryOf?_trim hkey, if_pos]
    simpa only [Text.trim_eq_nil_iff] using hside

-- ---------------------------------------------------------------------------
-- Reading entries
-- ---------------------------------------------------------------------------

/-- The pairs of the entries that are left once blanks are trimmed off and blank entries out. -/
def listedOf (entries : List (List Char)) : Except Failure (List (String × String)) :=
  pairsOf ((entries.map trim).filter (· ≠ []))

theorem listedOf_blank (h : Blank entry) (entries : List (List Char)) :
    listedOf (entry :: entries) = listedOf entries := by
  simp [listedOf, Text.trim_eq_nil_iff.mpr h]

theorem listedOf_row (hkey : '=' ∉ key) (hk : ¬ Blank key) (ha : ¬ Blank address)
    (entries : List (List Char)) : listedOf ((key ++ '=' :: address) :: entries) =
      (listedOf entries).map ((String.ofList (trim key), String.ofList (trim address)) :: ·) := by
  have hne : trim (key ++ '=' :: address) ≠ [] := by
    simp [Text.trim_append_cons _ _ isBlank_equals]
  rw [← Text.trim_eq_nil_iff] at hk ha
  rw [listedOf, List.map_cons, List.filter_cons_of_pos (by simpa using hne), pairsOf,
    entryOf?_trim hkey, if_neg (not_or.mpr ⟨hk, ha⟩)]
  rfl

theorem listedOf_malformed (h : Malformed entry) (entries : List (List Char)) :
    listedOf (entry :: entries) = .error (.malformedAlias (String.ofList (trim entry))) := by
  have hne : trim entry ≠ [] := fun he => h.1 (Text.trim_eq_nil_iff.mp he)
  rw [listedOf, List.map_cons, List.filter_cons_of_pos (by simpa using hne), pairsOf,
    entryOf?_of_malformed h]

theorem listedOf_eq_ok_iff : listedOf entries = .ok rows ↔ Lists entries rows := by
  constructor
  · intro h
    induction entries generalizing rows with
    | nil =>
      cases h
      exact .nil
    | cons entry entries ih =>
      rcases entry_cases entry with hb | hm | ⟨key, address, rfl, hkey, hk, ha⟩
      · exact .blank hb (ih (listedOf_blank hb entries ▸ h))
      · exact nomatch (listedOf_malformed hm entries).symm.trans h
      · rw [listedOf_row hkey hk ha, map_eq_ok] at h
        obtain ⟨rest, hrest, rfl⟩ := h
        exact .row hkey hk ha (ih hrest)
  · intro h
    induction h with
    | nil => rfl
    | blank hb _ ih => rw [listedOf_blank hb, ih]
    | row hkey hk ha _ ih =>
      rw [listedOf_row hkey hk ha, ih]
      rfl

theorem Malformed.not_blank (h : Malformed entry) : ¬ Blank entry := h.1

theorem Malformed.part_blank (h : Malformed (key ++ '=' :: address)) (hkey : '=' ∉ key) :
    Blank key ∨ Blank address := by
  obtain ⟨-, hmem | ⟨key', address', he, hkey', hside⟩⟩ := h
  · exact absurd (by simp) hmem
  · obtain ⟨rfl, hrest⟩ : key = key' ∧ '=' :: address = '=' :: address' := by
      have htake := congrArg (List.takeWhile (· ≠ '=')) he
      have hdrop := congrArg (List.dropWhile (· ≠ '=')) he
      rw [(takeWhile_of_not_mem hkey _).1, (takeWhile_of_not_mem hkey' _).1] at htake
      rw [(takeWhile_of_not_mem hkey _).2, (takeWhile_of_not_mem hkey' _).2] at hdrop
      exact ⟨htake, hdrop⟩
    cases hrest
    exact hside

/-- Reading fails on the first malformed entry. -/
theorem listedOf_eq_error_iff : listedOf entries = .error f ↔
    ∃ front entry back, entries = front ++ entry :: back ∧ (∀ e ∈ front, ¬ Malformed e) ∧
      Malformed entry ∧ f = .malformedAlias (String.ofList (trim entry)) := by
  constructor
  · intro h
    induction entries with
    | nil => cases h
    | cons entry entries ih =>
      rcases entry_cases entry with hb | hm | ⟨key, address, rfl, hkey, hk, ha⟩
      · obtain ⟨front, e, back, rfl, hfront, he⟩ := ih (listedOf_blank hb entries ▸ h)
        exact ⟨entry :: front, e, back, rfl,
          List.forall_mem_cons.mpr ⟨fun hm => hm.not_blank hb, hfront⟩, he⟩
      · cases (listedOf_malformed hm entries).symm.trans h
        exact ⟨[], entry, entries, rfl, by simp, hm, rfl⟩
      · rw [listedOf_row hkey hk ha, map_eq_error] at h
        obtain ⟨front, e, back, rfl, hfront, he⟩ := ih h
        exact ⟨_ :: front, e, back, rfl,
          List.forall_mem_cons.mpr ⟨fun hm => (hm.part_blank hkey).elim hk ha, hfront⟩, he⟩
  · rintro ⟨front, entry, back, rfl, hfront, hm, rfl⟩
    induction front with
    | nil => exact listedOf_malformed hm back
    | cons e front ih =>
      obtain ⟨he, hrest⟩ := List.forall_mem_cons.mp hfront
      rw [List.cons_append]
      rcases entry_cases e with hb | hm' | ⟨key, address, rfl, hkey, hk, ha⟩
      · rw [listedOf_blank hb, ih hrest]
      · exact absurd hm' he
      · rw [listedOf_row hkey hk ha, ih hrest]
        rfl

theorem exists_lists (h : ∀ e ∈ entries, ¬ Malformed e) : ∃ rows, Lists entries rows := by
  cases hrows : listedOf entries with
  | ok rows => exact ⟨rows, listedOf_eq_ok_iff.mp hrows⟩
  | error f =>
    obtain ⟨front, entry, back, rfl, -, hm, -⟩ := listedOf_eq_error_iff.mp hrows
    exact absurd hm (h entry (by simp))

theorem result_aliasTable {given : Option String} (h : IsCut (given.getD "").toList entries)
    (pairs : List (String × String)) :
    (aliasTable given pairs).result =
      (listedOf entries).map fun listed => .ofList (listed ++ pairs) := by
  simp only [aliasTable, Logged.result_bind, Logged.result_ofExcept, Logged.result_note,
    Logged.result_pure, Table.ofList_append]
  rw [entriesOf, isCut_iff.mp h, ← listedOf]
  cases listedOf entries <;> rfl

-- ---------------------------------------------------------------------------
-- Written tables
-- ---------------------------------------------------------------------------

/-- A row that can be written as an entry. -/
structure Plain (row : String × String) : Prop where
  key_ne : row.1 ≠ ""
  key_trimmed : Trimmed row.1.toList
  key_comma : ',' ∉ row.1.toList
  key_equals : '=' ∉ row.1.toList
  address_ne : row.2 ≠ ""
  address_trimmed : Trimmed row.2.toList
  address_comma : ',' ∉ row.2.toList

instance decidablePlain (row : String × String) : Decidable (Plain row) :=
  decidable_of_iff (row.1 ≠ "" ∧ Trimmed row.1.toList ∧ ',' ∉ row.1.toList ∧ '=' ∉ row.1.toList ∧
      row.2 ≠ "" ∧ Trimmed row.2.toList ∧ ',' ∉ row.2.toList)
    ⟨fun ⟨h₁, h₂, h₃, h₄, h₅, h₆, h₇⟩ => ⟨h₁, h₂, h₃, h₄, h₅, h₆, h₇⟩,
      fun ⟨h₁, h₂, h₃, h₄, h₅, h₆, h₇⟩ => ⟨h₁, h₂, h₃, h₄, h₅, h₆, h₇⟩⟩

/-- The entries write the rows, with any blanks around keys and addresses and among themselves. -/
inductive Writes : List (String × String) → List (List Char) → Prop
  | nil : Writes [] []
  | blank {rows : List (String × String)} {entries : List (List Char)} {entry : List Char} :
      Blank entry → Writes rows entries → Writes rows (entry :: entries)
  | row {rows : List (String × String)} {entries : List (List Char)} {key address : String}
      {a b c d : List Char} : Blank a → Blank b → Blank c → Blank d → Writes rows entries →
      Writes ((key, address) :: rows)
        (((a ++ key.toList ++ b) ++ '=' :: (c ++ address.toList ++ d)) :: entries)

theorem not_mem_of_blank {c : Char} {s : List Char} (hc : Text.isBlank c = false) (hs : Blank s) :
    c ∉ s := fun hmem => by simp [hs c hmem] at hc

theorem not_blank_of_trim {s : List Char} {text : String} (h : trim s = text.toList)
    (hne : text ≠ "") : ¬ Blank s := by
  rw [← Text.trim_eq_nil_iff, h]
  simpa using hne

theorem Writes.lists (h : Writes rows entries) (hrows : ∀ row ∈ rows, Plain row) :
    Lists entries rows := by
  induction h with
  | nil => exact .nil
  | blank hb _ ih => exact .blank hb (ih hrows)
  | @row rows entries key address a b c d ha hb hc hd _ ih =>
    obtain ⟨hrow, hrest⟩ := List.forall_mem_cons.mp hrows
    have hkey : trim (a ++ key.toList ++ b) = key.toList := Text.trim_padded ha hrow.key_trimmed hb
    have haddress : trim (c ++ address.toList ++ d) = address.toList :=
      Text.trim_padded hc hrow.address_trimmed hd
    have hequals : '=' ∉ a ++ key.toList ++ b := by
      simp [not_mem_of_blank isBlank_equals ha, not_mem_of_blank isBlank_equals hb, hrow.key_equals]
    have hlists := Lists.row hequals (not_blank_of_trim hkey hrow.key_ne)
      (not_blank_of_trim haddress hrow.address_ne) (ih hrest)
    simpa only [hkey, haddress, String.ofList_toList] using hlists

theorem Writes.not_mem_comma (h : Writes rows entries) (hrows : ∀ row ∈ rows, Plain row) :
    ∀ e ∈ entries, ',' ∉ e := by
  have hcomma : Text.isBlank ',' = false := by decide
  induction h with
  | nil => simp
  | blank hb _ ih => exact List.forall_mem_cons.mpr ⟨not_mem_of_blank hcomma hb, ih hrows⟩
  | row ha hb hc hd _ ih =>
    obtain ⟨hrow, hrest⟩ := List.forall_mem_cons.mp hrows
    refine List.forall_mem_cons.mpr ⟨?_, ih hrest⟩
    simp [not_mem_of_blank hcomma ha, not_mem_of_blank hcomma hb, not_mem_of_blank hcomma hc,
      not_mem_of_blank hcomma hd, hrow.key_comma, hrow.address_comma]

/-- A table that is written as a text is what the text lists. -/
theorem Writes.result_aliasTable (h : Writes rows entries) (hrows : ∀ row ∈ rows, Plain row)
    (hkeys : (rows.map Prod.fst).Nodup) :
    (aliasTable (some (String.ofList (List.intercalate [','] entries))) []).result =
      .ok ⟨rows⟩ := by
  have htable : Table.ofList rows = ⟨rows⟩ := congrArg Table.mk (Table.entries_ofList hkeys)
  by_cases hne : entries = []
  · subst hne
    cases h
    rfl
  · have hcut : IsCut (Option.getD (some (String.ofList (List.intercalate [','] entries)))
        "").toList entries :=
      ⟨by simp, hne, h.not_mem_comma hrows⟩
    rw [Command.result_aliasTable hcut, listedOf_eq_ok_iff.mpr (h.lists hrows), ← htable,
      Except.map, List.append_nil]

-- ---------------------------------------------------------------------------
-- The table
-- ---------------------------------------------------------------------------

/-- The table of a text and of pairs behind it. A text is cut at its commas in one way. Reading it
fails exactly if an entry is malformed, and the failure names the first such entry. If none is, a
key has the value that the last pair gives it, and failing that the one that the last entry does,
and keys stand in the order in which they first come. A table that is written as a text is read
back. -/
theorem aliasTable_reads :
    (∀ text, ∃! entries, IsCut text entries) ∧
    (∀ given pairs entries, IsCut (Option.getD given "").toList entries →
      (∀ f, (aliasTable given pairs).result = .error f ↔
        ∃ front entry back, entries = front ++ entry :: back ∧ (∀ e ∈ front, ¬ Malformed e) ∧
          Malformed entry ∧ f = .malformedAlias (String.ofList (trim entry))) ∧
      ((∀ e ∈ entries, ¬ Malformed e) → ∃ listed, Lists entries listed) ∧
      ∀ listed, Lists entries listed → ∃ table, (aliasTable given pairs).result = .ok table ∧
        (∀ key, table.get? key =
          ((pairs.findRev? (·.1 = key)).or (listed.findRev? (·.1 = key))).map Prod.snd) ∧
        table.keys = ((listed ++ pairs).map Prod.fst).eraseDups) ∧
    ∀ rows entries, (∀ row ∈ rows, Plain row) → (rows.map Prod.fst).Nodup → Writes rows entries →
      (aliasTable (some (String.ofList (List.intercalate [','] entries))) []).result =
        .ok ⟨rows⟩ := by
  refine ⟨fun text => ?_, fun given pairs entries hcut => ⟨fun f => ?_, exists_lists,
    fun listed hl => ?_⟩, fun rows entries hrows hkeys h => h.result_aliasTable hrows hkeys⟩
  · simp only [isCut_iff, existsUnique_eq']
  · rw [result_aliasTable hcut, map_eq_error, listedOf_eq_error_iff]
  · refine ⟨_, by rw [result_aliasTable hcut, listedOf_eq_ok_iff.mpr hl]; rfl, fun key => ?_,
      Table.keys_ofList _⟩
    rw [Table.get?_ofList, List.findRev?_eq_find?_reverse, List.reverse_append, List.find?_append,
      List.findRev?_eq_find?_reverse, List.findRev?_eq_find?_reverse]

/-- A text that lists a key twice and that a pair overrides, a malformed one, and a written one. -/
theorem aliasTable_reads_overridden :
    (∃ table, (aliasTable (some "K =1=2,\t,B=3, K=4 ") [("B", "05")]).result = .ok table ∧
      table.get? "K" = some "4" ∧ table.get? "B" = some "05" ∧ table.keys = ["K", "B"]) ∧
    (aliasTable (some "A=1, =2 ,x") []).result = .error (.malformedAlias "=2") ∧
    (aliasTable (some ", K\t= 1=2 ,B=3") []).result = .ok ⟨[("K", "1=2"), ("B", "3")]⟩ := by
  obtain ⟨-, hread, hwritten⟩ := aliasTable_reads
  refine ⟨?_, ?_, ?_⟩
  · have hcut : IsCut "K =1=2,\t,B=3, K=4 ".toList
        ["K =1=2".toList, "\t".toList, "B=3".toList, " K=4 ".toList] :=
      isCut_iff.mpr (by decide)
    have hlists : Lists ["K =1=2".toList, "\t".toList, "B=3".toList, " K=4 ".toList]
        [("K", "1=2"), ("B", "3"), ("K", "4")] := listedOf_eq_ok_iff.mp (by decide)
    obtain ⟨table, htable, hget, hkeys⟩ :=
      (hread (some "K =1=2,\t,B=3, K=4 ") [("B", "05")] _ hcut).2.2 _ hlists
    exact ⟨table, htable, (hget "K").trans (by decide),
      (hget "B").trans (by decide), hkeys.trans (by decide)⟩
  · have hcut : IsCut "A=1, =2 ,x".toList ["A=1".toList, " =2 ".toList, "x".toList] :=
      isCut_iff.mpr (by decide)
    have hfirst : ¬ Malformed "A=1".toList := fun hm =>
      absurd (@Malformed.part_blank ['A'] ['1'] hm (by decide)) (by decide)
    have hm : Malformed " =2 ".toList :=
      ⟨by decide, .inr ⟨[' '], ['2', ' '], rfl, by decide, .inl (by decide)⟩⟩
    exact ((hread (some "A=1, =2 ,x") [] _ hcut).1 _).mpr
      ⟨["A=1".toList], " =2 ".toList, ["x".toList], rfl, by simpa using hfirst, hm, by decide⟩
  · have hrows : ∀ row ∈ [("K", "1=2"), ("B", "3")], Plain row := by decide
    have hwrites : Writes [("K", "1=2"), ("B", "3")] [[], " K\t= 1=2 ".toList, "B=3".toList] :=
      .blank (by decide) (.row (a := [' ']) (b := ['\t']) (c := [' ']) (d := [' '])
        (by decide) (by decide) (by decide) (by decide)
        (.row (a := []) (b := []) (c := []) (d := []) (by decide) (by decide) (by decide)
          (by decide) .nil))
    have htext : ", K\t= 1=2 ,B=3" = String.ofList
        (List.intercalate [','] [[], " K\t= 1=2 ".toList, "B=3".toList]) := by decide
    rw [htext]
    exact hwritten _ _ hrows (by decide) hwrites

end ContractLinker.Command
