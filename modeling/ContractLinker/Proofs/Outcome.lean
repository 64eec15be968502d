import Mathlib.Data.List.Forall2

/-!
# Outcomes

When a chain of operations that may fail succeeds, when it fails, and on which member an operation
on a whole list does.
-/

namespace ContractLinker

variable {α β ε : Type}

theorem bind_eq_ok {x : Except ε α} {f : α → Except ε β} {b : β} :
    x >>= f = .ok b ↔ ∃ a, x = .ok a ∧ f a = .ok b := by
  cases x <;> simp [bind, Except.bind]

theorem bind_eq_error {x : Except ε α} {f : α → Except ε β} {e : ε} :
    x >>= f = .error e ↔ x = .error e ∨ ∃ a, x = .ok a ∧ f a = .error e := by
  cases x <;> simp [bind, Except.bind]

theorem pure_eq_ok {a b : α} : (pure a : Except ε α) = .ok b ↔ a = b := by
  simp [pure, Except.pure]

@[simp] theorem pure_ne_error {a : α} {e : ε} : (pure a : Except ε α) ≠ .error e := by
  simp [pure, Except.pure]

theorem map_eq_ok {f : α → β} {x : Except ε α} {b : β} :
    x.map f = .ok b ↔ ∃ a, x = .ok a ∧ f a = b := by
  cases x <;> simp [Except.map]

theorem map_eq_error {f : α → β} {x : Except ε α} {e : ε} : x.map f = .error e ↔ x = .error e := by
  cases x <;> simp [Except.map]

theorem mapM_eq_ok_iff {f : α → Except ε β} {l : List α} {bs : List β} :
    l.mapM f = .ok bs ↔ List.Forall₂ (fun a b => f a = .ok b) l bs := by
  induction l generalizing bs with
  | nil => rw [List.mapM_nil, pure_eq_ok, List.forall₂_nil_left_iff, eq_comm]
  | cons a l ih =>
    simp only [List.mapM_cons, bind_eq_ok, pure_eq_ok, ih, List.forall₂_cons_left_iff]
    constructor
    · rintro ⟨b, hb, cs, hcs, rfl⟩
      exact ⟨b, cs, hb, hcs, rfl⟩
    · rintro ⟨b, cs, hb, hcs, rfl⟩
      exact ⟨b, hb, cs, hcs, rfl⟩

theorem exists_of_forall₂ {r : α → β → Prop} {as : List α} {bs : List β}
    (h : List.Forall₂ r as bs) {b : β} (hb : b ∈ bs) : ∃ a ∈ as, r a b := by
  induction h with
  | nil => exact nomatch hb
  | @cons a b' as bs hab _ ih =>
    rcases List.mem_cons.mp hb with rfl | hb
    · exact ⟨a, List.mem_cons_self, hab⟩
    · obtain ⟨x, hx, hxb⟩ := ih hb
      exact ⟨x, List.mem_cons_of_mem _ hx, hxb⟩

/-- An operation that succeeds on a list succeeds on its members. -/
theorem exists_of_mapM_eq_ok {f : α → Except ε β} {l : List α} {bs : List β}
    (h : l.mapM f = .ok bs) {a : α} (ha : a ∈ l) : ∃ b, f a = .ok b := by
  obtain ⟨b, -, hb⟩ := exists_of_forall₂ (mapM_eq_ok_iff.mp h).flip ha
  exact ⟨b, hb⟩

/-- An operation that succeeds on a list of keys gives each of them its value. -/
theorem pairs_of_mapM_eq_ok {f : α → Except ε β} {l : List α} {pairs : List (α × β)}
    (h : l.mapM (fun a => (f a).map (a, ·)) = .ok pairs) :
    pairs.map Prod.fst = l ∧ ∀ pair ∈ pairs, f pair.1 = .ok pair.2 := by
  induction l generalizing pairs with
  | nil =>
    cases pure_eq_ok.mp h
    simp
  | cons a rest ih =>
    simp only [List.mapM_cons, bind_eq_ok, map_eq_ok, pure_eq_ok] at h
    obtain ⟨_, ⟨b, hb, rfl⟩, tail, htail, rfl⟩ := h
    obtain ⟨hkeys, hall⟩ := ih htail
    exact ⟨by simp [hkeys], List.forall_mem_cons.mpr ⟨hb, hall⟩⟩

/-- An operation on a list fails as it does on the first member that it fails on. -/
theorem mapM_eq_error_iff {f : α → Except ε β} {l : List α} {e : ε} :
    l.mapM f = .error e ↔
      ∃ l₁ a l₂, l = l₁ ++ a :: l₂ ∧ (∀ x ∈ l₁, ∃ b, f x = .ok b) ∧ f a = .error e := by
  induction l with
  | nil => simp
  | cons a l ih =>
    simp only [List.mapM_cons, bind_eq_error, ih]
    constructor
    · rintro (ha | ⟨b, hb, ⟨l₁, x, l₂, rfl, hl₁, hx⟩ | ⟨cs, -, h⟩⟩)
      · exact ⟨[], a, l, rfl, by simp, ha⟩
      · exact ⟨a :: l₁, x, l₂, rfl, by simpa [hb] using hl₁, hx⟩
      · cases h
    · rintro ⟨l₁, x, l₂, he, hl₁, hx⟩
      cases l₁ with
      | nil =>
        cases he
        exact .inl hx
      | cons y l₁ =>
        cases he
        obtain ⟨b, hb⟩ := hl₁ a List.mem_cons_self
        exact .inr ⟨b, hb, .inl ⟨l₁, x, l₂, rfl, fun z hz => hl₁ z (List.mem_cons_of_mem _ hz), hx⟩⟩

/-- What becomes of the values of a list can be done to each of them. -/
theorem map_mapM {γ : Type} (f : α → Except ε β) (g : β → γ) (l : List α) :
    (l.mapM f).map (List.map g) = l.mapM fun a => (f a).map g := by
  induction l with
  | nil => rfl
  | cons a l ih =>
    rw [List.mapM_cons, List.mapM_cons, ← ih]
    cases f a with
    | error e => rfl
    | ok b => cases l.mapM f <;> rfl

theorem mapM_congr {f g : α → Except ε β} {l : List α} (h : ∀ a ∈ l, f a = g a) :
    l.mapM f = l.mapM g := by
  have hresults : (l.map f).mapM id = (l.map g).mapM id := by rw [List.map_congr_left h]
  rwa [List.mapM_map, List.mapM_map] at hresults

end ContractLinker
