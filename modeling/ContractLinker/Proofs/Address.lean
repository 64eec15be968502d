import ContractLinker.Address
import ContractLinker.Proofs.Text.Trim

/-!
# Address text

`Spells text digits` says what address text is, by its parts and not by how it is read: blanks
around it, at most one radix mark, and hexadecimal digits with `_` among them. `accepts_spelled`
holds the reader to it in both directions: the texts that have an address are the ones that spell
digits, the bytes of the address are those digits written in lowercase and padded to an even
number, and two texts have one address when their padded digits are the same.

`ofText?_marked` says what the text of a hexadecimal number is read as, and `ofText?_literal` that
the literal of an address that has bytes is text of the same address.
-/

namespace ContractLinker.Address

-- ---------------------------------------------------------------------------
-- Digits
-- ---------------------------------------------------------------------------

theorem isHexDigit_iff {c : Char} :
    isHexDigit c = true ↔ (48 ≤ c.toNat ∧ c.toNat ≤ 57) ∨ (97 ≤ c.toNat ∧ c.toNat ≤ 102) ∨
      (65 ≤ c.toNat ∧ c.toNat ≤ 70) := by
  have h0 : ('0' ≤ c ∧ c ≤ '9') ↔ (48 ≤ c.toNat ∧ c.toNat ≤ 57) := Iff.rfl
  have ha : ('a' ≤ c ∧ c ≤ 'f') ↔ (97 ≤ c.toNat ∧ c.toNat ≤ 102) := Iff.rfl
  have hA : ('A' ≤ c ∧ c ≤ 'F') ↔ (65 ≤ c.toNat ∧ c.toNat ≤ 70) := Iff.rfl
  rw [← h0, ← ha, ← hA, isHexDigit, digitValue?]
  split
  · simp_all
  · split
    · simp_all
    · split <;> simp_all

theorem digitValue?_digit {n : Nat} (h : n < 16) : digitValue? (digit n) = some n := by
  revert n
  decide

theorem isHexDigit_digit {n : Nat} (h : n < 16) : isHexDigit (digit n) = true := by
  rw [isHexDigit, digitValue?_digit h]
  rfl

theorem digit_bounds (b : UInt8) : b.toNat / 16 < 16 ∧ b.toNat % 16 < 16 := by
  have := b.toNat_lt
  omega

theorem isHexDigit_of_mem_hexChars {a : Address} {c : Char} (h : c ∈ a.hexChars) :
    isHexDigit c = true := by
  obtain ⟨b, -, hc⟩ := List.mem_flatMap.mp h
  obtain ⟨hhigh, hlow⟩ := digit_bounds b
  rcases (by simpa using hc : c = digit (b.toNat / 16) ∨ c = digit (b.toNat % 16)) with rfl | rfl
  · exact isHexDigit_digit hhigh
  · exact isHexDigit_digit hlow

theorem hexChars_ne_nil {a : Address} (h : a.bytes ≠ []) : a.hexChars ≠ [] := by
  obtain ⟨b, bs, hb⟩ := List.exists_cons_of_ne_nil h
  simp [hexChars, hb]

theorem filterMap_hexChars (bs : List UInt8) :
    (hexChars ⟨bs⟩).filterMap digitValue? = bs.flatMap fun b => [b.toNat / 16, b.toNat % 16] := by
  induction bs with
  | nil => rfl
  | cons b bs ih =>
    obtain ⟨hhigh, hlow⟩ := digit_bounds b
    simpa [hexChars, digitValue?_digit hhigh, digitValue?_digit hlow] using ih

theorem pairUp_flatMap (bs : List UInt8) :
    pairUp (bs.flatMap fun b => [b.toNat / 16, b.toNat % 16]) = bs := by
  induction bs with
  | nil => rfl
  | cons b bs ih => simp [pairUp, ih, Nat.div_add_mod]

theorem pairUp_nibbles_hexChars (a : Address) : pairUp (nibbles a.hexChars) = a.bytes := by
  have hlen : ∀ bs : List UInt8,
      (bs.flatMap fun b => [b.toNat / 16, b.toNat % 16]).length % 2 = 0 := by
    intro bs
    induction bs with
    | nil => rfl
    | cons b bs ih =>
      rw [List.flatMap_cons, List.length_append]
      change (2 + _) % 2 = 0
      omega
  rw [nibbles, filterMap_hexChars, if_pos (hlen a.bytes), pairUp_flatMap]

/-- Address text has at least one byte. -/
theorem bytes_ne_nil {text : String} {a : Address} (h : ofText? text = some a) : a.bytes ≠ [] := by
  rw [ofText?, Option.ite_none_right_eq_some, Option.some.injEq] at h
  obtain ⟨⟨hne, hall⟩, rfl⟩ := h
  obtain ⟨c, hc⟩ := List.exists_mem_of_ne_nil _ hne
  obtain ⟨v, hv⟩ := Option.isSome_iff_exists.mp (List.all_eq_true.mp hall c hc)
  have hmem : v ∈ (digitsOf text.toList).filterMap digitValue? :=
    List.mem_filterMap.mpr ⟨c, hc, hv⟩
  simp only [nibbles]
  generalize (digitsOf text.toList).filterMap digitValue? = values at hmem ⊢
  match values with
  | [] => cases hmem
  | [v] => simp [pairUp]
  | v :: w :: rest => split <;> simp [pairUp]

theorem ne_underscore_of_isHexDigit {c : Char} (h : isHexDigit c = true) : c ≠ '_' := by
  rintro rfl
  exact absurd h (by decide)

-- ---------------------------------------------------------------------------
-- Blanks around a text
-- ---------------------------------------------------------------------------

theorem isBlank_of_bounds {c : Char} (hl : 48 ≤ c.toNat) (hu : c.toNat ≤ 122) :
    Text.isBlank c = false := by
  refine Bool.eq_false_iff.mpr fun hblank => ?_
  obtain ⟨r, hr, hlo, hhi⟩ := Text.CodePoints.exists_of_has hblank
  have hout : ∀ r ∈ Text.blanks, r.2 < 48 ∨ 122 < r.1 := by decide
  rcases hout r hr with h | h <;> omega

theorem isBlank_of_isHexDigit {c : Char} (h : (isHexDigit c || c = '_') = true) :
    Text.isBlank c = false := by
  rcases Bool.or_eq_true_iff.mp h with h | h
  · rcases isHexDigit_iff.mp h with h | h | h <;> exact isBlank_of_bounds (by omega) (by omega)
  · rw [of_decide_eq_true h]
    decide

theorem trimmed_of_not_blank {s : List Char} (h : ∀ c ∈ s, Text.isBlank c = false) :
    Text.Trimmed s :=
  ⟨fun c hc => h c (List.mem_of_mem_head? hc), fun c hc => h c (List.mem_of_getLast? hc)⟩

-- ---------------------------------------------------------------------------
-- The digits of a text
-- ---------------------------------------------------------------------------

/-- What may stand in front of the digits. -/
def radixMarks : List (List Char) := [[], ['0', 'x'], ['0', 'X']]

/-- `text` is address text, and `digits` are the digits in it. -/
inductive Spells : List Char → List Char → Prop
  | parts {lead mark body trail : List Char} (blankLead : ∀ c ∈ lead, Text.isBlank c = true)
      (marked : mark ∈ radixMarks) (onlyDigits : ∀ c ∈ body, isHexDigit c = true ∨ c = '_')
      (someDigit : ∃ c ∈ body, isHexDigit c = true)
      (blankTrail : ∀ c ∈ trail, Text.isBlank c = true) :
      Spells (lead ++ (mark ++ body) ++ trail) (body.filter (· ≠ '_'))

/-- The reader takes off one mark, if there is one. -/
theorem digitsOf_cases (s : List Char) :
    ∃ mark ∈ radixMarks, ∃ body, Text.trim s = mark ++ body ∧
      digitsOf s = body.filter (· ≠ '_') := by
  rw [digitsOf]
  split
  case h_1 rest h => exact ⟨['0', 'x'], by simp [radixMarks], rest, h, rfl⟩
  case h_2 rest h => exact ⟨['0', 'X'], by simp [radixMarks], rest, h, rfl⟩
  case h_3 => exact ⟨[], by simp [radixMarks], _, rfl, rfl⟩

theorem mem_radixMarks {mark : List Char} :
    mark ∈ radixMarks ↔ mark = [] ∨ mark = ['0', 'x'] ∨ mark = ['0', 'X'] := by
  simp [radixMarks]

theorem mark_not_blank {mark : List Char} (h : mark ∈ radixMarks) {c : Char} (hc : c ∈ mark) :
    Text.isBlank c = false := by
  have hchar : c = '0' ∨ c = 'x' ∨ c = 'X' := by
    rcases mem_radixMarks.mp h with rfl | rfl | rfl <;> simp at hc <;> grind
  rcases hchar with rfl | rfl | rfl <;> exact isBlank_of_bounds (by decide) (by decide)

theorem mark_not_hex {c : Char} (h : c = 'x' ∨ c = 'X') : ¬ (isHexDigit c = true ∨ c = '_') := by
  rcases h with rfl | rfl <;> decide

theorem digitsOf_of_spells {s digits : List Char} (h : Spells s digits) : digitsOf s = digits := by
  obtain @⟨lead, mark, body, trail, hlead, hmark, hbody, -, htrail⟩ := h
  have hplain : ∀ c ∈ mark ++ body, Text.isBlank c = false := by
    intro c hc
    rcases List.mem_append.mp hc with hc | hc
    · exact mark_not_blank hmark hc
    · exact isBlank_of_isHexDigit (by simpa using hbody c hc)
  rw [digitsOf, Text.trim_padded hlead (trimmed_of_not_blank hplain) htrail]
  rcases mem_radixMarks.mp hmark with rfl | rfl | rfl
  -- Without a mark the digits do not begin like one, as its letter is no digit.
  · rw [List.nil_append]
    split
    case h_1 => exact absurd (hbody 'x' (by simp)) (mark_not_hex (.inl rfl))
    case h_2 => exact absurd (hbody 'X' (by simp)) (mark_not_hex (.inr rfl))
    case h_3 => rfl
  · rfl
  · rfl

theorem mem_digits {s digits : List Char} (h : Spells s digits) :
    digits ≠ [] ∧ ∀ c ∈ digits, isHexDigit c = true := by
  obtain ⟨-, -, hbody, ⟨c, hc, hdigit⟩, -⟩ := h
  refine ⟨List.ne_nil_of_mem (List.mem_filter.mpr ⟨hc, ?_⟩), fun d hd => ?_⟩
  · simpa using ne_underscore_of_isHexDigit hdigit
  · obtain ⟨hd, hne⟩ := List.mem_filter.mp hd
    exact (hbody d hd).resolve_right (by simpa using hne)

theorem ofText?_of_spells {text : String} {digits : List Char} (h : Spells text.toList digits) :
    ofText? text = some ⟨pairUp (nibbles digits)⟩ := by
  obtain ⟨hne, hall⟩ := mem_digits h
  rw [ofText?, digitsOf_of_spells h, if_pos ⟨hne, List.all_eq_true.mpr hall⟩]

theorem exists_spells {text : String} {a : Address} (h : ofText? text = some a) :
    ∃ digits, Spells text.toList digits := by
  rw [ofText?, Option.ite_none_right_eq_some] at h
  obtain ⟨⟨hne, hall⟩, -⟩ := h
  obtain ⟨mark, hmark, body, htrim, hdigits⟩ := digitsOf_cases text.toList
  obtain ⟨lead, trail, hlead, htrail, htext⟩ := Text.exists_trim text.toList
  rw [hdigits] at hne hall
  have hmem : ∀ c ∈ body, c ≠ '_' → isHexDigit c = true := fun c hc hn =>
    List.all_eq_true.mp hall c (List.mem_filter.mpr ⟨hc, by simpa using hn⟩)
  obtain ⟨c, hc⟩ := List.exists_mem_of_ne_nil _ hne
  have hbody := (List.mem_filter.mp hc).1
  rw [htext, htrim]
  refine ⟨_, .parts hlead hmark (fun d hd => ?_)
    ⟨c, hbody, List.all_eq_true.mp hall c hc⟩ htrail⟩
  by_cases hd' : d = '_'
  · exact .inr hd'
  · exact .inl (hmem d hd hd')

/-- The text of a hexadecimal number, which has a mark and no blanks. -/
theorem ofText?_marked {mark : Char} {s : List Char} (hm : mark = 'x' ∨ mark = 'X')
    (hs : ∀ c ∈ s, (isHexDigit c || c = '_') = true) (hany : s.any (· ≠ '_') = true) :
    ofText? (String.ofList ('0' :: mark :: s)) =
      some ⟨pairUp (nibbles (s.filter (· ≠ '_')))⟩ := by
  have hbody : ∀ c ∈ s, isHexDigit c = true ∨ c = '_' := by simpa using hs
  obtain ⟨c, hc, hn⟩ := List.any_eq_true.mp hany
  have hspells := @Spells.parts [] ['0', mark] s [] (by simp) (by simpa [radixMarks] using hm) hbody
    ⟨c, hc, (hbody c hc).resolve_right (by simpa using hn)⟩ (by simp)
  exact ofText?_of_spells (by simpa using hspells)

-- ---------------------------------------------------------------------------
-- The digits an address writes
-- ---------------------------------------------------------------------------

/-- Digits as an address writes them: lowercase, and an even number of them. -/
def padded (digits : List Char) : List Char :=
  if digits.length % 2 = 0 then digits.map Char.toLower else '0' :: digits.map Char.toLower

theorem digit_of_digitValue? {c : Char} {v : Nat} (h : digitValue? c = some v) :
    v < 16 ∧ digit v = c.toLower := by
  have hsmall : c.toNat < 103 := by
    have hhex : isHexDigit c = true := by simp [isHexDigit, h]
    rcases isHexDigit_iff.mp hhex with h | h | h <;> omega
  have hall : ∀ n < 103, ∀ v ∈ digitValue? (Char.ofNat n),
      v < 16 ∧ digit v = (Char.ofNat n).toLower := by decide
  simpa using hall c.toNat hsmall v (by simpa using h)

theorem map_digit_filterMap {digits : List Char} (h : ∀ c ∈ digits, isHexDigit c = true) :
    (∀ v ∈ digits.filterMap digitValue?, v < 16) ∧
      (digits.filterMap digitValue?).map digit = digits.map Char.toLower := by
  induction digits with
  | nil => simp
  | cons c digits ih =>
    obtain ⟨v, hv⟩ := Option.isSome_iff_exists.mp (h c (by simp))
    obtain ⟨hlt, hdigit⟩ := digit_of_digitValue? hv
    obtain ⟨hsmall, hmap⟩ := ih fun d hd => h d (by simp [hd])
    rw [List.filterMap_cons_some hv]
    exact ⟨by simpa [hlt] using hsmall, by simp [hdigit, hmap]⟩

/-- The bytes of an even number of digit values are written with those digits. -/
theorem hexChars_pairUp (vs : List Nat) (heven : vs.length % 2 = 0) (hs : ∀ v ∈ vs, v < 16) :
    hexChars ⟨pairUp vs⟩ = vs.map digit := by
  induction vs using pairUp.induct with
  | case1 high low rest ih =>
    have hhigh : high < 16 := hs high (by simp)
    have hlow : low < 16 := hs low (by simp)
    have hbyte : (UInt8.ofNat (16 * high + low)).toNat = 16 * high + low := by
      simp only [UInt8.toNat_ofNat']
      omega
    have hrest : rest.length % 2 = 0 := by
      rw [List.length_cons, List.length_cons] at heven
      omega
    have ih := ih hrest fun v hv => hs v (by simp [hv])
    have hquot : (16 * high + low) / 16 = high := by omega
    have hmod : (16 * high + low) % 16 = low := by omega
    rw [hexChars] at ih ⊢
    simp only [pairUp, List.flatMap_cons, hbyte, hquot, hmod, ih, List.map_cons,
      List.cons_append, List.nil_append]
  | case2 vs hshort =>
    rcases vs with _ | ⟨v, _ | ⟨w, rest⟩⟩
    · rfl
    · simp at heven
    · exact absurd rfl (hshort v w rest)

theorem hexChars_of_digits {digits : List Char} (h : ∀ c ∈ digits, isHexDigit c = true) :
    hexChars ⟨pairUp (nibbles digits)⟩ = padded digits := by
  obtain ⟨hsmall, hmap⟩ := map_digit_filterMap h
  have hlen : (digits.filterMap digitValue?).length = digits.length := by
    simpa using congrArg List.length hmap
  rw [nibbles, hlen, padded]
  split
  case isTrue heven => rw [hexChars_pairUp _ (hlen ▸ heven) hsmall, hmap]
  case isFalse hodd =>
    rw [hexChars_pairUp _ (by simp only [List.length_cons, hlen]; omega)
      (by simpa using hsmall), List.map_cons, hmap]
    rfl

theorem hexChars_injective {a b : Address} (h : a.hexChars = b.hexChars) : a = b := by
  have hbytes : a.bytes = b.bytes := by
    rw [← pairUp_nibbles_hexChars a, ← pairUp_nibbles_hexChars b, h]
  cases a
  cases b
  exact congrArg Address.mk hbytes

theorem toList_literal (a : Address) : a.literal.toList = '0' :: 'x' :: a.hexChars := by
  simp [literal, hex]

theorem filter_hexChars (a : Address) : a.hexChars.filter (· ≠ '_') = a.hexChars := by
  refine List.filter_eq_self.mpr fun c hc => ?_
  simpa using ne_underscore_of_isHexDigit (isHexDigit_of_mem_hexChars hc)

/-- The digits of an address are text of it, with or without a mark. -/
theorem spells_marked {a : Address} (h : a.bytes ≠ []) {mark : List Char} (hm : mark ∈ radixMarks) :
    Spells (mark ++ a.hexChars) a.hexChars := by
  obtain ⟨c, hc⟩ := List.exists_mem_of_ne_nil _ (hexChars_ne_nil h)
  have hparts := @Spells.parts [] mark a.hexChars [] (by simp) hm
    (fun c hc => .inl (isHexDigit_of_mem_hexChars hc)) ⟨c, hc, isHexDigit_of_mem_hexChars hc⟩
    (by simp)
  rwa [filter_hexChars, List.nil_append, List.append_nil] at hparts

theorem ofText?_hex {a : Address} (h : a.bytes ≠ []) : ofText? a.hex = some a := by
  have hspells : Spells a.hex.toList a.hexChars := by
    rw [hex, String.toList_ofList]
    exact @spells_marked a h [] (by simp [radixMarks])
  rw [ofText?_of_spells hspells, pairUp_nibbles_hexChars]

theorem ofText?_literal {a : Address} (h : a.bytes ≠ []) : ofText? a.literal = some a := by
  have hspells : Spells a.literal.toList a.hexChars := by
    rw [toList_literal]
    exact @spells_marked a h ['0', 'x'] (by simp [radixMarks])
  rw [ofText?_of_spells hspells, pairUp_nibbles_hexChars]

-- ---------------------------------------------------------------------------
-- Texts and addresses
-- ---------------------------------------------------------------------------

theorem hexChars_of_spells {text : String} {a : Address} {digits : List Char}
    (h : ofText? text = some a) (hs : Spells text.toList digits) : a.hexChars = padded digits := by
  rw [ofText?_of_spells hs] at h
  obtain rfl := Option.some.inj h
  exact hexChars_of_digits (mem_digits hs).2

theorem eq_iff_padded {t u : String} {a b : Address} {ds es : List Char}
    (ht : ofText? t = some a) (hu : ofText? u = some b) (hds : Spells t.toList ds)
    (hes : Spells u.toList es) : a = b ↔ padded ds = padded es := by
  rw [← hexChars_of_spells ht hds, ← hexChars_of_spells hu hes]
  exact ⟨congrArg hexChars, hexChars_injective⟩

theorem length_padded_zeros (ds : List Char) :
    (padded ('0' :: '0' :: ds)).length = (padded ds).length + 2 := by
  simp only [padded, List.length_cons, Nat.add_assoc, Nat.add_mod_right]
  split <;> simp

/-- The reader accepts the texts that spell digits, and the address it gives has those digits,
written in lowercase and padded to whole bytes. Both ways of writing an address that has bytes are
read back as that address; texts have one address when their padded digits agree, so a zero byte
in front makes another address. -/
theorem accepts_spelled :
    (∀ text, (∃ a, ofText? text = some a) ↔ ∃ digits, Spells text.toList digits) ∧
    (∀ text a digits, ofText? text = some a → Spells text.toList digits →
      a.hex = String.ofList (padded digits)) ∧
    (∀ a : Address, a.bytes ≠ [] → ofText? a.hex = some a ∧ ofText? a.literal = some a) ∧
    (∀ t u a b ds es, ofText? t = some a → ofText? u = some b → Spells t.toList ds →
      Spells u.toList es →
      (a = b ↔ padded ds = padded es) ∧ (es = '0' :: '0' :: ds → a ≠ b)) := by
  refine ⟨fun text => ⟨fun ⟨a, h⟩ => exists_spells h, fun ⟨digits, h⟩ => ⟨_, ofText?_of_spells h⟩⟩,
    fun text a digits h hs => ?_, fun a h => ⟨ofText?_hex h, ofText?_literal h⟩,
    fun t u a b ds es ht hu hds hes => ⟨eq_iff_padded ht hu hds hes, fun hzeros hsame => ?_⟩⟩
  · rw [hex, hexChars_of_spells h hs]
  · have hlength := congrArg List.length ((eq_iff_padded ht hu hds hes).mp hsame)
    rw [hzeros, length_padded_zeros] at hlength
    omega

/-- A blank, the other mark and a separator are read away; two zeros in front are not. -/
theorem accepts_spelled_blank_mark_separator : ∃ a b,
    ofText? "\t0X1_0 " = some a ∧ a.hex = "10" ∧ ofText? a.literal = some a ∧
      ofText? "00_10" = some b ∧ a ≠ b := by
  have hdigits : isHexDigit '0' = true ∧ isHexDigit '1' = true := by decide
  have hblanks : Text.isBlank '\t' = true ∧ Text.isBlank ' ' = true := by decide
  have ht : Spells "\t0X1_0 ".toList ['1', '0'] :=
    @Spells.parts ['\t'] ['0', 'X'] ['1', '_', '0'] [' '] (by simp [hblanks])
      (by simp [radixMarks]) (by simp [hdigits]) (by simp [hdigits]) (by simp [hblanks])
  have hu : Spells "00_10".toList ['0', '0', '1', '0'] :=
    @Spells.parts [] [] ['0', '0', '_', '1', '0'] [] (by simp) (by simp [radixMarks])
      (by simp [hdigits]) (by simp [hdigits]) (by simp)
  obtain ⟨a, ha⟩ := (accepts_spelled.1 _).mpr ⟨_, ht⟩
  obtain ⟨b, hb⟩ := (accepts_spelled.1 _).mpr ⟨_, hu⟩
  have hne : a ≠ b := (accepts_spelled.2.2.2 _ _ a b _ _ ha hb ht hu).2 rfl
  have hhex : a.hex = "10" := accepts_spelled.2.1 _ a _ ha ht
  exact ⟨a, b, ha, hhex, (accepts_spelled.2.2.1 a (bytes_ne_nil ha)).2, hb, hne⟩

end ContractLinker.Address
