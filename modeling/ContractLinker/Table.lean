/-!
# Tables

A table maps keys to values and remembers the order in which its keys first came: writing to a
known key changes the value and keeps the place. `get?_insert` and `keys_insert` say what a write
does to the two views, the value of a key and the row of keys.
-/

namespace ContractLinker

structure Table (κ : Type) (α : Type) where
  entries : List (κ × α) := []
  deriving DecidableEq, Repr, Inhabited

namespace Table

variable {κ α : Type} [DecidableEq κ]

def empty : Table κ α := ⟨[]⟩

def keys (t : Table κ α) : List κ := t.entries.map Prod.fst

def find (key : κ) : List (κ × α) → Option α
  | [] => none
  | (k, a) :: rest => if k = key then some a else find key rest

def get? (t : Table κ α) (key : κ) : Option α := find key t.entries

def contains (t : Table κ α) (key : κ) : Bool := (t.get? key).isSome

/-- Rows with `key` set to `value`, in its old place if it has one and at the end otherwise. -/
def put (key : κ) (value : α) : List (κ × α) → List (κ × α)
  | [] => [(key, value)]
  | (k, a) :: rest => if k = key then (k, value) :: rest else (k, a) :: put key value rest

def insert (t : Table κ α) (key : κ) (value : α) : Table κ α := ⟨put key value t.entries⟩

def erase (t : Table κ α) (key : κ) : Table κ α := ⟨t.entries.filter (·.1 ≠ key)⟩

/-- Writes the pairs one after the other, so the last value of a key stands. -/
def insertAll (t : Table κ α) (pairs : List (κ × α)) : Table κ α :=
  pairs.foldl (fun t pair => t.insert pair.1 pair.2) t

def ofList (pairs : List (κ × α)) : Table κ α := empty.insertAll pairs

@[simp] theorem get?_empty (key : κ) : (empty : Table κ α).get? key = none := rfl

theorem find_put (key other : κ) (value : α) (rows : List (κ × α)) :
    find other (put key value rows) = if other = key then some value else find other rows := by
  induction rows with
  | nil => by_cases h : key = other <;> simp [put, find, h, eq_comm]
  | cons row rest ih =>
    obtain ⟨k, a⟩ := row
    by_cases hk : k = key
    · subst hk
      by_cases h : k = other
      · simp [put, find, h]
      · simp [put, find, h, Ne.symm h]
    · by_cases h : k = other
      · subst h; simp [put, find, hk]
      · simp [put, find, hk, h, ih]

@[simp] theorem get?_insert (t : Table κ α) (key other : κ) (value : α) :
    (t.insert key value).get? other = if other = key then some value else t.get? other :=
  find_put key other value t.entries

theorem find_isSome_iff (key : κ) (rows : List (κ × α)) :
    (find key rows).isSome ↔ key ∈ rows.map Prod.fst := by
  induction rows with
  | nil => simp [find]
  | cons row rest ih =>
    obtain ⟨k, a⟩ := row
    by_cases h : k = key
    · simp [find, h]
    · simp [find, h, ih, Ne.symm h]

theorem contains_iff_mem_keys (t : Table κ α) (key : κ) : t.contains key ↔ key ∈ t.keys :=
  find_isSome_iff key t.entries

/-- A write appends a new key and leaves the row of keys alone otherwise. -/
theorem keys_insert (t : Table κ α) (key : κ) (value : α) :
    (t.insert key value).keys = if key ∈ t.keys then t.keys else t.keys ++ [key] := by
  suffices h : ∀ rows : List (κ × α), (put key value rows).map Prod.fst =
      if key ∈ rows.map Prod.fst then rows.map Prod.fst else rows.map Prod.fst ++ [key] from
    h t.entries
  intro rows
  induction rows with
  | nil => simp [put]
  | cons row rest ih =>
    obtain ⟨k, a⟩ := row
    by_cases h : k = key
    · simp [put, h]
    · have h' : key ≠ k := fun e => h e.symm
      simp only [put, h, if_false, List.map_cons, ih, List.mem_cons, h', false_or]
      split <;> simp

end Table

end ContractLinker
