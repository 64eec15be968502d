import ContractLinker.Command.Run
import ContractLinker.Proofs.Script.Tables

/-!
# Contract options for one path

A script is resolved with the contracts of the command line, and a path may be given more than
once, spelled in different ways. First each spelling keeps the address that it was given last,
in the place where it first came up; then the spellings of one path follow each other in the order
of these places. So it is not always the last option for a path that decides: `Decides` says which
one does, and `resolved_as_decided` that the text has its address. `resolved_with_earlier_option`
is a command line on which the last option does not decide.
-/

namespace ContractLinker.Command

variable {env : Environment} {options : Options} {contracts : List ContractArgument}
  {c d : ContractArgument} {path file : String}

-- ---------------------------------------------------------------------------
-- The deciding option
-- ---------------------------------------------------------------------------

/-- The last option for a path, however it is spelled. -/
structure IsLast (contracts : List ContractArgument) (path : String) (c : ContractArgument) :
    Prop where
  leads : Path.clean c.path = path
  last : ∃ front back, contracts = front ++ c :: back ∧ ∀ d ∈ back, Path.clean d.path ≠ path

/-- A spelling comes up before another one first does. -/
def ComesUpBefore (contracts : List ContractArgument) (spelling other : String) : Prop :=
  spelling ∈ (contracts.map (·.path)).takeWhile (· ≠ other)

/-- The spelling of an option is the one of a path that comes up after all others. -/
def IsNewest (contracts : List ContractArgument) (path : String) (c : ContractArgument) : Prop :=
  ∀ d ∈ contracts, Path.clean d.path = path →
    d.path = c.path ∨ ComesUpBefore contracts d.path c.path

/-- The option that decides where a path leads: the last with the newest spelling. -/
structure Decides (contracts : List ContractArgument) (path : String) (c : ContractArgument) :
    Prop where
  leads : Path.clean c.path = path
  last : ∃ front back, contracts = front ++ c :: back ∧ ∀ d ∈ back, d.path ≠ c.path
  newest : IsNewest contracts path c

theorem ComesUpBefore.asymm {x y : String} (h : ComesUpBefore contracts x y) :
    ¬ ComesUpBefore contracts y x := by
  unfold ComesUpBefore at h ⊢
  induction contracts with
  | nil => cases h
  | cons c contracts ih =>
    intro h'
    by_cases hx : c.path = x
    · simp [hx] at h'
    · by_cases hy : c.path = y
      · simp [hy] at h
      · rw [List.map_cons, List.takeWhile_cons_of_pos (by simpa using hy)] at h
        rw [List.map_cons, List.takeWhile_cons_of_pos (by simpa using hx)] at h'
        exact ih ((List.mem_cons.mp h).resolve_left (Ne.symm hx))
          ((List.mem_cons.mp h').resolve_left (Ne.symm hy))

theorem IsLast.decides (h : IsLast contracts path c) (hn : IsNewest contracts path c) :
    Decides contracts path c := by
  obtain ⟨front, back, he, hback⟩ := h.last
  exact ⟨h.leads, ⟨front, back, he, fun d hd hpath => hback d hd (hpath ▸ h.leads)⟩, hn⟩

-- ---------------------------------------------------------------------------
-- The table of contracts
-- ---------------------------------------------------------------------------

/-- The rows that contract options make. -/
def rowsOf (contracts : List ContractArgument) : List (String × String) :=
  contracts.map fun c => (c.path, c.target)

theorem keys_rowsOf (contracts : List ContractArgument) :
    (rowsOf contracts).map Prod.fst = contracts.map (·.path) := by
  simp [rowsOf]

theorem mem_keys_rowsOf {spelling : String} :
    spelling ∈ (Table.ofList (rowsOf contracts)).keys ↔ ∃ d ∈ contracts, d.path = spelling := by
  rw [Table.mem_keys_ofList, keys_rowsOf, List.mem_map]

/-- Rows stand in the order in which their spellings come up. -/
theorem comesUpBefore_of_precedes {row other : String × String}
    (h : Precedes (Table.ofList (rowsOf contracts)).entries row other) :
    ComesUpBefore contracts row.1 other.1 := by
  have hkeys : Precedes (Table.ofList (rowsOf contracts)).keys row.1 other.1 :=
    List.Sublist.map Prod.fst h
  have hbefore := Table.mem_takeWhile_of_precedes hkeys
  rwa [keys_rowsOf] at hbefore

/-- The row of a spelling has the address that it was given last. -/
theorem mem_entries_rowsOf {front back : List ContractArgument}
    (he : contracts = front ++ c :: back) (hback : ∀ d ∈ back, d.path ≠ c.path) :
    (c.path, c.target) ∈ (Table.ofList (rowsOf contracts)).entries := by
  have hlast : (rowsOf contracts).findRev? (·.1 = c.path) = some (c.path, c.target) :=
    Table.findRev?_eq_some_iff.mpr ⟨by simp, rowsOf front, rowsOf back, by simp [he, rowsOf],
      by simpa [rowsOf] using hback⟩
  rw [Table.mem_entries_iff (Table.nodup_keys_ofList _), Table.get?_ofList, hlast]
  rfl

theorem exists_mem_of_mem_entries {row : String × String}
    (h : row ∈ (Table.ofList (rowsOf contracts)).entries) :
    ∃ front c back, contracts = front ++ c :: back ∧ (∀ d ∈ back, d.path ≠ c.path) ∧
      row = (c.path, c.target) := by
  have hget := (Table.mem_entries_iff (Table.nodup_keys_ofList _) row.1 row.2).mp h
  rw [Table.get?_ofList, rowsOf, Table.findRev?_map, Option.map_map, Option.map_eq_some_iff] at hget
  obtain ⟨c, hc, hvalue⟩ := hget
  obtain ⟨hkey, front, back, he, hback⟩ := Table.findRev?_eq_some_iff.mp hc
  have hkey : c.path = row.1 := by simpa using hkey
  refine ⟨front, c, back, he, fun d hd => ?_, Prod.ext hkey.symm hvalue.symm⟩
  rw [hkey]
  simpa using hback d hd

/-- The last row that leads to a path is that of the deciding option. -/
theorem Decides.findRev?_entries (h : Decides contracts path c) :
    (Table.ofList (rowsOf contracts)).entries.findRev? (Path.clean ·.1 = path) =
      some (c.path, c.target) := by
  obtain ⟨front, back, hc, hback⟩ := h.last
  have hmem := mem_entries_rowsOf hc hback
  obtain ⟨before, behind, he⟩ := List.append_of_mem hmem
  refine Table.findRev?_eq_some_iff.mpr
    ⟨by simpa using h.leads, before, behind, he, fun row hrow => ?_⟩
  rw [decide_eq_false_iff_not]
  intro hleads
  have hrow' : row ∈ (Table.ofList (rowsOf contracts)).entries := by simp [he, hrow]
  obtain ⟨front', d, back', hd, -, rfl⟩ := exists_mem_of_mem_entries hrow'
  rcases h.newest d (by simp [hd]) hleads with hsame | hbefore
  -- No other row has the spelling of the option, and the rows behind it have newer spellings.
  · have hnodup := Table.nodup_keys_ofList (rowsOf contracts)
    rw [Table.keys, he, List.map_append, List.map_cons] at hnodup
    have hnew : c.path ∉ behind.map Prod.fst := (List.nodup_cons.mp hnodup.of_append_right).1
    exact hnew (List.mem_map.mpr ⟨_, hrow, hsame⟩)
  · have hprecedes : Precedes (Table.ofList (rowsOf contracts)).entries (c.path, c.target)
        (d.path, d.target) := by
      rw [he]
      exact Precedes.mono (.cons_left hrow) (List.sublist_append_right _ _)
    exact (comesUpBefore_of_precedes hprecedes).asymm hbefore

theorem exists_decides (h : ∃ c ∈ contracts, Path.clean c.path = path) :
    ∃ c, Decides contracts path c := by
  obtain ⟨d, hd, hleads⟩ := h
  have hkey : d.path ∈ (Table.ofList (rowsOf contracts)).keys := mem_keys_rowsOf.mpr ⟨d, hd, rfl⟩
  obtain ⟨row, hrow, hpath⟩ := List.mem_map.mp hkey
  cases hfind : (Table.ofList (rowsOf contracts)).entries.findRev? (Path.clean ·.1 = path) with
  | none =>
    rw [List.findRev?_eq_find?_reverse, List.find?_eq_none] at hfind
    exact absurd (hpath ▸ hleads) (by simpa using hfind row (List.mem_reverse.mpr hrow))
  | some last =>
    -- The last row that leads to the path: what comes up behind it leads elsewhere.
    obtain ⟨hlast, before, behind, he, hbehind⟩ := Table.findRev?_eq_some_iff.mp hfind
    have hmem : last ∈ (Table.ofList (rowsOf contracts)).entries := by simp [he]
    obtain ⟨front, c, back, hc, hback, rfl⟩ := exists_mem_of_mem_entries hmem
    refine ⟨c, by simpa using hlast, ⟨front, back, hc, hback⟩, fun e he' hpath => ?_⟩
    obtain ⟨other, hother, hkey⟩ := List.mem_map.mp (mem_keys_rowsOf.mpr ⟨e, he', rfl⟩)
    rw [he] at hother
    rw [← hkey] at hpath ⊢
    rcases List.mem_append.mp hother with hother | hother
    · have hprecedes : Precedes (Table.ofList (rowsOf contracts)).entries other
          (c.path, c.target) := by
        rw [he]
        exact .append hother List.mem_cons_self
      exact .inr (comesUpBefore_of_precedes hprecedes)
    · rcases List.mem_cons.mp hother with rfl | hother
      · exact .inl rfl
      · exact absurd hpath (by simpa using hbehind other hother)

-- ---------------------------------------------------------------------------
-- The text
-- ---------------------------------------------------------------------------

open Script (AreAddresses addressAt? exists_targetsOf resolveLocation resolveLocation_congr)

theorem areAddresses_rowsOf (h : ∀ c ∈ contracts, ∃ a, Address.ofText? c.target = some a) :
    AreAddresses (Table.ofList (rowsOf contracts)) := by
  intro row hrow
  obtain ⟨front, c, back, he, -, rfl⟩ := exists_mem_of_mem_entries hrow
  exact h c (by simp [he])

theorem Decides.addressAt?_eq (h : Decides contracts path c) :
    addressAt? (Table.ofList (rowsOf contracts)) path = Address.ofText? c.target := by
  rw [addressAt?, h.findRev?_entries]
  rfl

theorem addressAt?_rowsOf_eq_none (h : ∀ c ∈ contracts, Path.clean c.path ≠ path) :
    addressAt? (Table.ofList (rowsOf contracts)) path = none := by
  rw [addressAt?, Option.bind_eq_none_iff]
  intro row hrow
  obtain ⟨front, c, back, he, -, rfl⟩ :=
    exists_mem_of_mem_entries (Table.mem_of_findRev?_eq_some hrow)
  have hleads := (Table.findRev?_eq_some_iff.mp hrow).1
  exact absurd (by simpa using hleads) (h c (by simp [he]))

variable {aliases : List (String × String)} {table : AliasTable} {targets : Table String Address}
  {code location : String} {s : Script}

theorem Decides.exists_resolveLocation (h : Decides contracts (Path.locate file location) c)
    (hvalid : ∀ c ∈ contracts, ∃ a, Address.ofText? c.target = some a)
    (ht : ∀ path, targets.get? path = addressAt? (Table.ofList (rowsOf contracts)) path) :
    ∃ a, Address.ofText? c.target = some a ∧
      s.resolveLocation options file targets table location = .ok a := by
  obtain ⟨front, back, he, -⟩ := h.last
  obtain ⟨a, ha⟩ := hvalid c (by simp [he])
  refine ⟨a, ha, ?_⟩
  simp only [resolveLocation, ht, h.addressAt?_eq, ha]

/-- The command resolves the script of the file with the rows of its options. -/
theorem result_resolved (htable : (aliasTable env.aliasEntries aliases).result = .ok table)
    (hcode : env.readSource file = .ok code) (hs : Script.ofCode file code = .ok s) :
    (resolved env options contracts aliases file).result =
      (s.resolve options file (Table.ofList (rowsOf contracts)) table).result := by
  simp only [resolved, Logged.result_bind, Logged.result_ofExcept, htable, hcode, hs, Except.bind,
    rowsOf]

/-- A path that contract options give leads to the address of the deciding one. Of the options that
give it, that is the last, unless this is a spelling that came up before another one. The text has
the address put in for the locations that lead to the path; and if resolving fails, then on the
aliases, at a location that leads to no path that an option gives. -/
theorem resolved_as_decided
    (hvalid : ∀ c ∈ contracts, ∃ a, Address.ofText? c.target = some a)
    (htable : (aliasTable env.aliasEntries aliases).result = .ok table)
    (hcode : env.readSource file = .ok code) (hs : Script.ofCode file code = .ok s) :
    (∀ path, (∃ c ∈ contracts, Path.clean c.path = path) → ∃ c, Decides contracts path c) ∧
    (∀ path c, IsLast contracts path c → IsNewest contracts path c → Decides contracts path c) ∧
    (∀ text, (resolved env options contracts aliases file).result = .ok text →
      ∃ targets, text = Substitution.locations options.everyOccurrence code targets ∧
        targets.map Prod.fst = s.program.locations.eraseDups ∧
        ∀ row ∈ targets, ∀ c, Decides contracts (Path.locate file row.1) c →
          Address.ofText? c.target = some row.2) ∧
    ∀ f, (resolved env options contracts aliases file).result = .error f →
      ∃ l ∈ s.program.locations, (∀ c ∈ contracts, Path.clean c.path ≠ Path.locate file l) ∧
        s.resolveLocation options file .empty table l = .error f := by
  obtain ⟨targets, htargets, hget⟩ := exists_targetsOf (areAddresses_rowsOf hvalid)
  have hcode' : s.code = code := by
    obtain ⟨program, -, rfl⟩ := map_eq_ok.mp hs
    rfl
  rw [result_resolved htable hcode hs, Script.result_resolve, htargets, Except.bind, hcode']
  refine ⟨fun path h => exists_decides h, fun path c h hn => h.decides hn, fun text htext => ?_,
    fun f hf => ?_⟩
  · obtain ⟨pairs, hpairs, rfl⟩ := map_eq_ok.mp htext
    obtain ⟨hkeys, hall⟩ := pairs_of_mapM_eq_ok hpairs
    refine ⟨_, rfl, hkeys ▸ Table.keys_ofList pairs, fun row hrow c hc => ?_⟩
    obtain ⟨a, ha, hrow'⟩ := hc.exists_resolveLocation hvalid hget
    cases hrow'.symm.trans (hall row (Table.mem_of_mem_entries_ofList hrow))
    exact ha
  · obtain ⟨front, l, back, he, -, hl⟩ := mapM_eq_error_iff.mp (map_eq_error.mp hf)
    rw [map_eq_error] at hl
    have hnone : ∀ c ∈ contracts, Path.clean c.path ≠ Path.locate file l := by
      intro c hc hleads
      obtain ⟨d, hd⟩ := exists_decides ⟨c, hc, hleads⟩
      obtain ⟨a, -, ha⟩ := hd.exists_resolveLocation hvalid hget
      cases ha.symm.trans hl
    refine ⟨l, by simp [he], hnone, (resolveLocation_congr ?_ fun _ => rfl).trans hl⟩
    rw [hget, addressAt?_rowsOf_eq_none hnone]
    rfl

/-- The last option for a path is the second spelling of it. -/
theorem resolved_as_decided_respelled :
    let contracts : List ContractArgument :=
      [⟨"A", "A.cdc", "01"⟩, ⟨"B", "B.cdc", "03"⟩, ⟨"A", "./A.cdc", "02"⟩]
    let code := "import \"A.cdc\" import \"lib/../B.cdc\""
    let env : Environment := { workingDirectory := "/w", read := fun _ => .ok code }
    IsLast contracts "A.cdc" ⟨"A", "./A.cdc", "02"⟩ ∧
      (resolved env {} contracts [] "m.cdc").result = .ok "import 0x02 import 0x03" ∧
      ∃ targets, Substitution.locations false code targets = "import 0x02 import 0x03" ∧
        targets.map Prod.fst = ["A.cdc", "lib/../B.cdc"] ∧
        ∀ row ∈ targets, row.1 = "A.cdc" → Address.ofText? "02" = some row.2 := by
  intro contracts code env
  let line (n m : Nat) : Span := ⟨⟨1, n⟩, ⟨1, m⟩⟩
  let s : Script := ⟨code, "m.cdc", ⟨[⟨[], .quoted "A.cdc", line 1 15⟩,
    ⟨[], .quoted "lib/../B.cdc", line 16 37⟩], line 1 37, "m.cdc"⟩⟩
  have hvalid : ∀ c ∈ contracts, ∃ a, Address.ofText? c.target = some a := by
    simp only [← Option.isSome_iff_exists]
    decide +kernel
  have hresult : (resolved env {} contracts [] "m.cdc").result =
      .ok "import 0x02 import 0x03" := by decide +kernel
  have hlast : IsLast contracts "A.cdc" ⟨"A", "./A.cdc", "02"⟩ :=
    ⟨by decide +kernel, [_, _], [], rfl, by simp⟩
  have hnewest : IsNewest contracts "A.cdc" ⟨"A", "./A.cdc", "02"⟩ := by
    unfold IsNewest ComesUpBefore
    decide +kernel
  obtain ⟨-, hdecides, htext, -⟩ := @resolved_as_decided env {} contracts "m.cdc" [] {} code s
    hvalid (by decide +kernel) rfl (by decide +kernel)
  obtain ⟨targets, he, hkeys, htargets⟩ := htext _ hresult
  refine ⟨hlast, hresult, targets, he.symm, hkeys.trans (by decide +kernel), fun row hrow hl => ?_⟩
  have hpath : Path.locate "m.cdc" row.1 = "A.cdc" := by
    rw [hl]
    decide +kernel
  exact htargets row hrow _ (hpath ▸ hdecides _ _ hlast hnewest)

/-- The last option for a path repeats a spelling that came up before another one, and the other
one decides. -/
theorem resolved_with_earlier_option :
    let contracts : List ContractArgument :=
      [⟨"A", "A.cdc", "01"⟩, ⟨"A", "./A.cdc", "02"⟩, ⟨"A", "A.cdc", "03"⟩]
    let env : Environment :=
      { workingDirectory := "/w", read := fun _ => .ok "import \"A.cdc\"" }
    let argv := ["resolve", "-c", "A", "A.cdc", "01", "-c", "A", "./A.cdc", "02", "-c", "A",
      "A.cdc", "03", "m.cdc"]
    IsLast contracts (Path.locate "m.cdc" "A.cdc") ⟨"A", "A.cdc", "03"⟩ ∧
      (∀ c ∈ contracts, (Address.ofText? c.target).isSome) ∧
      ∃ a, parse? argv = some a ∧ a.action = .resolve contracts [] none "m.cdc" ∧
        (run env a).status = 0 ∧ (run env a).output = "import 0x02" := by
  intro contracts env argv
  exact ⟨⟨by decide +kernel, [_, _], [], rfl, by simp⟩, by decide +kernel,
    ⟨{}, .resolve contracts [] none "m.cdc"⟩, by decide +kernel, rfl, by decide +kernel,
    by decide +kernel⟩

end ContractLinker.Command
