import ContractLinker.Table
import Mathlib.Data.List.Induction
import Mathlib.Data.List.Nodup

/-!
# Tables that writes built

What writes do to the rows of a table: keys stay apart, rows picked by their keys are written to as
the whole table is, and pairs with keys of their own become its rows as they are.
-/

namespace ContractLinker

namespace Table

variable {κ α : Type} [DecidableEq κ]

theorem nodup_keys_insert {t : Table κ α} (h : t.keys.Nodup) (key : κ) (value : α) :
    (t.insert key value).keys.Nodup := by
  rw [keys_insert]
  split
  · exact h
  · next hk => simpa using h.concat hk

theorem mem_keys_insert {t : Table κ α} {key other : κ} {value : α} :
    other ∈ (t.insert key value).keys ↔ other ∈ t.keys ∨ other = key := by
  rw [keys_insert]
  split
  · next hk => exact ⟨.inl, fun h => h.elim id fun he => he ▸ hk⟩
  · simp

theorem find_eq_some_iff {rows : List (κ × α)} (h : (rows.map Prod.fst).Nodup) (key : κ)
    (value : α) : find key rows = some value ↔ (key, value) ∈ rows := by
  induction rows with
  | nil => simp [find]
  | cons row rest ih =>
    obtain ⟨k, a⟩ := row
    rw [List.map_cons, List.nodup_cons] at h
    by_cases hk : k = key
    · subst hk
      have hrest : ∀ b, (k, b) ∉ rest := fun b hb => h.1 (List.mem_map.mpr ⟨_, hb, rfl⟩)
      simp [find, hrest, eq_comm]
    · simp [find, hk, ih h.2, Ne.symm hk]

/-- The rows of a table are its keys with their values. -/
theorem mem_entries_iff {t : Table κ α} (h : t.keys.Nodup) (key : κ) (value : α) :
    (key, value) ∈ t.entries ↔ t.get? key = some value :=
  (find_eq_some_iff h key value).symm

-- ---------------------------------------------------------------------------
-- Rows
-- ---------------------------------------------------------------------------

theorem put_of_find {rows : List (κ × α)} {key : κ} {value : α} (h : find key rows = some value) :
    put key value rows = rows := by
  induction rows with
  | nil => cases h
  | cons row rest ih =>
    obtain ⟨k, a⟩ := row
    by_cases hk : k = key
    · simpa [find, put, hk, eq_comm] using h
    · simpa [find, put, hk] using ih (by simpa [find, hk] using h)

theorem put_of_not_mem {rows : List (κ × α)} {key : κ} (value : α) (h : key ∉ rows.map Prod.fst) :
    put key value rows = rows ++ [(key, value)] := by
  induction rows with
  | nil => rfl
  | cons row rest ih =>
    obtain ⟨k, a⟩ := row
    rw [List.map_cons, List.mem_cons, not_or] at h
    simp [put, Ne.symm h.1, ih h.2]

theorem map_put {β : Type} (f : α → β) (key : κ) (value : α) (rows : List (κ × α)) :
    (put key value rows).map (fun row => (row.1, f row.2)) =
      put key (f value) (rows.map fun row => (row.1, f row.2)) := by
  induction rows with
  | nil => rfl
  | cons row rest ih =>
    by_cases hk : row.1 = key
    · simp [put, hk]
    · simp [put, hk, ih]

theorem filter_put (p : κ → Bool) (key : κ) (value : α) (rows : List (κ × α)) :
    (put key value rows).filter (fun row => p row.1) =
      if p key then put key value (rows.filter fun row => p row.1)
      else rows.filter fun row => p row.1 := by
  induction rows with
  | nil => cases h : p key <;> simp [put, h]
  | cons row rest ih =>
    obtain ⟨k, a⟩ := row
    by_cases hk : k = key
    · subst hk
      cases h : p k <;> simp [put, h]
    · cases h : p k <;> cases h' : p key <;> simp [put, hk, h, ih, h']

-- ---------------------------------------------------------------------------
-- The last of a row
-- ---------------------------------------------------------------------------

section
variable {β γ : Type} {p : β → Bool} {l : List β} {b : β}

theorem findRev?_eq_some_iff : l.findRev? p = some b ↔
    p b = true ∧ ∃ front back, l = front ++ b :: back ∧ ∀ x ∈ back, p x = false := by
  rw [List.findRev?_eq_find?_reverse, List.find?_eq_some_iff_append]
  refine and_congr_right fun _ => ⟨fun ⟨back, front, he, hback⟩ => ?_,
    fun ⟨front, back, he, hback⟩ => ?_⟩
  · exact ⟨front.reverse, back.reverse, by simpa using congrArg List.reverse he,
      by simpa using hback⟩
  · exact ⟨back.reverse, front.reverse, by simp [he], by simpa using hback⟩

theorem mem_of_findRev?_eq_some (h : l.findRev? p = some b) : b ∈ l := by
  obtain ⟨-, front, back, rfl, -⟩ := findRev?_eq_some_iff.mp h
  simp

theorem findRev?_map (f : γ → β) (p : β → Bool) (l : List γ) :
    (l.map f).findRev? p = (l.findRev? (p ∘ f)).map f := by
  rw [List.findRev?_eq_find?_reverse, List.findRev?_eq_find?_reverse, ← List.map_reverse,
    List.find?_map]

end

-- ---------------------------------------------------------------------------
-- Tables of pairs
-- ---------------------------------------------------------------------------

@[simp] theorem insertAll_cons (t : Table κ α) (pair : κ × α) (pairs : List (κ × α)) :
    t.insertAll (pair :: pairs) = (t.insert pair.1 pair.2).insertAll pairs := rfl

theorem insert_of_get? {t : Table κ α} {key : κ} {value : α} (h : t.get? key = some value) :
    t.insert key value = t := by
  rw [insert, put_of_find h]

theorem ofList_concat (pairs : List (κ × α)) (pair : κ × α) :
    ofList (pairs ++ [pair]) = (ofList pairs).insert pair.1 pair.2 := by
  simp [ofList, insertAll]

theorem mem_keys_ofList {pairs : List (κ × α)} {key : κ} :
    key ∈ (ofList pairs).keys ↔ key ∈ pairs.map Prod.fst := by
  induction pairs using List.reverseRecOn with
  | nil => simp [ofList, insertAll, empty, keys]
  | append_singleton pairs pair ih => simp [ofList_concat, mem_keys_insert, ih]

theorem nodup_keys_ofList (pairs : List (κ × α)) : (ofList pairs).keys.Nodup := by
  induction pairs using List.reverseRecOn with
  | nil => exact List.nodup_nil
  | append_singleton pairs pair ih =>
    rw [ofList_concat]
    exact nodup_keys_insert ih pair.1 pair.2

theorem ofList_append (front back : List (κ × α)) :
    ofList (front ++ back) = (ofList front).insertAll back :=
  List.foldl_append ..

/-- The last pair of a key gives its value. -/
theorem get?_ofList (pairs : List (κ × α)) (key : κ) :
    (ofList pairs).get? key = (pairs.findRev? (·.1 = key)).map Prod.snd := by
  induction pairs using List.reverseRecOn with
  | nil => rfl
  | append_singleton pairs pair ih =>
    rw [ofList_concat, get?_insert, ih, List.findRev?_eq_find?_reverse,
      List.findRev?_eq_find?_reverse, List.reverse_append, List.reverse_singleton,
      List.singleton_append, List.find?_cons]
    by_cases h : pair.1 = key
    · simp [h]
    · simp [h, Ne.symm h]

/-- The rows of a table are some of the pairs that it was made of. -/
theorem mem_of_mem_entries_ofList {pairs : List (κ × α)} {row : κ × α}
    (h : row ∈ (ofList pairs).entries) : row ∈ pairs := by
  have hget := (mem_entries_iff (nodup_keys_ofList pairs) row.1 row.2).mp h
  rw [get?_ofList, Option.map_eq_some_iff] at hget
  obtain ⟨pair, hpair, hvalue⟩ := hget
  have hkey : pair.1 = row.1 := by simpa using (findRev?_eq_some_iff.mp hpair).1
  exact Prod.ext hkey hvalue ▸ mem_of_findRev?_eq_some hpair

/-- Keys stand in the order in which they first come. -/
theorem keys_ofList (pairs : List (κ × α)) :
    (ofList pairs).keys = (pairs.map Prod.fst).eraseDups := by
  induction pairs using List.reverseRecOn with
  | nil => rfl
  | append_singleton pairs pair ih =>
    rw [ofList_concat, keys_insert, ih, List.map_append, List.eraseDups_append]
    by_cases h : pair.1 ∈ pairs.map Prod.fst
    · simp [h, List.removeAll]
    · simp [h, List.removeAll, List.eraseDups_cons]

/-- Pairs with keys of their own are the rows of their table. -/
theorem entries_ofList {pairs : List (κ × α)} (h : (pairs.map Prod.fst).Nodup) :
    (ofList pairs).entries = pairs := by
  induction pairs using List.reverseRecOn with
  | nil => rfl
  | append_singleton pairs pair ih =>
    rw [List.map_append] at h
    have hpairs := ih h.of_append_left
    have hnew : pair.1 ∉ (ofList pairs).entries.map Prod.fst := by
      rw [hpairs]
      exact fun hmem => List.disjoint_of_nodup_append h hmem List.mem_cons_self
    rw [ofList_concat, insert, put_of_not_mem pair.2 hnew, hpairs]

theorem find_map {β : Type} (f : β → κ) (g : β → α) (key : κ) (l : List β) :
    find key (l.map fun b => (f b, g b)) = (l.find? (f · = key)).map g := by
  induction l with
  | nil => rfl
  | cons b l ih => by_cases h : f b = key <;> simp [find, h, ih]

end Table

end ContractLinker
