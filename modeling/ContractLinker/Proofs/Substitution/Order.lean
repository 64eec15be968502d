import ContractLinker.Proofs.Graph.Queue
import ContractLinker.Proofs.Substitution.Row

/-!
# The order of substitutions

Substituting one location and then another gives the same text in both orders if their occurrences
are `Apart` and neither contains what is put in for the other: `location_comm`. So the rows of a
table may be substituted with some of them first, as far as those that change places allow it:
`locations_filter`.
-/

namespace ContractLinker.Substitution

-- ---------------------------------------------------------------------------
-- Occurrences that share characters
-- ---------------------------------------------------------------------------

/-- No occurrence of one pattern shares a character with an occurrence of the other. -/
def Apart (p q s : List Char) : Prop :=
  ∀ m < s.length, ∀ n < s.length, p <+: s.drop m → q <+: s.drop n →
    m + p.length ≤ n ∨ n + q.length ≤ m

instance decidableApart (p q s : List Char) : Decidable (Apart p q s) :=
  inferInstanceAs (Decidable (∀ m < _, ∀ n < _, _ → _ → _))

/-- The text of an occurrence of `p` together with one of `q` that begins in it. -/
inductive Merged (p q : List Char) : List Char → Prop
  | within : q <:+: p → Merged p q p
  | across {u z v : List Char} : z ≠ [] → p = u ++ z → q = z ++ v → Merged p q (u ++ z ++ v)

/-- Two patterns are nowhere merged in a text. -/
structure Clear (p q s : List Char) : Prop where
  left : ∀ {w}, Merged p q w → ¬ w <:+: s
  right : ∀ {w}, Merged q p w → ¬ w <:+: s

variable {p q s t u w x y new : List Char} {every : Bool}

theorem Apart.symm (h : Apart p q s) : Apart q p s :=
  fun m hm n hn hq hp => (h n hn m hm hp hq).symm

theorem Apart.le_or_le {u' v v' : List Char} (h : Apart p q s) (hp : p ≠ []) (hq : q ≠ [])
    (hs : s = u ++ p ++ v) (hs' : s = u' ++ q ++ v') :
    u.length + p.length ≤ u'.length ∨ u'.length + q.length ≤ u.length := by
  have hpos := List.length_pos_iff.mpr hp
  have hpos' := List.length_pos_iff.mpr hq
  have hlen := congrArg List.length hs
  have hlen' := congrArg List.length hs'
  simp only [List.length_append] at hlen hlen'
  exact h u.length (by omega) u'.length (by omega) ⟨v, by simp [hs]⟩ ⟨v', by simp [hs']⟩

theorem Apart.not_infix (h : Apart p q s) (hp : p ≠ []) (hq : q ≠ []) (hw : Merged p q w) :
    ¬ w <:+: s := by
  have hpos := List.length_pos_iff.mpr hp
  have hpos' := List.length_pos_iff.mpr hq
  rintro ⟨a, b, rfl⟩
  cases hw with
  | within hin =>
    obtain ⟨g, k, rfl⟩ := hin
    have hinner : a ++ (g ++ q ++ k) ++ b = (a ++ g) ++ q ++ (k ++ b) := by simp
    have hle := h.le_or_le hp hq rfl hinner
    simp only [List.length_append] at hle hpos
    omega
  | @across u z v hz he he' =>
    have hzpos := List.length_pos_iff.mpr hz
    have hleft : a ++ (u ++ z ++ v) ++ b = a ++ p ++ (v ++ b) := by simp [he]
    have hright : a ++ (u ++ z ++ v) ++ b = (a ++ u) ++ q ++ b := by simp [he']
    have hle := h.le_or_le hp hq hleft hright
    simp only [he, he', List.length_append] at hle
    omega

theorem Apart.clear (h : Apart p q s) (hp : p ≠ []) (hq : q ≠ []) : Clear p q s :=
  ⟨h.not_infix hp hq, h.symm.not_infix hq hp⟩

theorem Clear.symm (h : Clear p q s) : Clear q p s := ⟨h.right, h.left⟩

theorem Clear.mono (h : Clear p q s) (ht : t <:+: s) : Clear p q t :=
  ⟨fun hw hin => h.left hw (hin.trans ht), fun hw hin => h.right hw (hin.trans ht)⟩

-- ---------------------------------------------------------------------------
-- Quoted patterns
-- ---------------------------------------------------------------------------

/-- Begins and ends with a quote. -/
structure Quoted (p : List Char) : Prop where
  head : p.head? = some '"'
  last : p.getLast? = some '"'

theorem quoted_quotedSpelling (location : List Char) : Quoted (quotedSpelling location) :=
  ⟨head?_quotedSpelling location, getLast?_quotedSpelling location⟩

theorem Quoted.ne_nil (h : Quoted p) : p ≠ [] := by
  rintro rfl
  cases h.head

theorem Quoted.head?_of_prefix (hp : Quoted p) (h : p <+: s) : s.head? = some '"' := by
  obtain ⟨t, rfl⟩ := h
  rw [List.head?_append_of_ne_nil _ hp.ne_nil, hp.head]

theorem Merged.quoted (hp : Quoted p) (hq : Quoted q) (h : Merged p q w) : Quoted w := by
  cases h with
  | within => exact hp
  | @across u z v hz he he' =>
    refine ⟨?_, ?_⟩
    · rw [List.head?_append_of_ne_nil _ (by simp [hz]), ← he]
      exact hp.head
    · rw [List.append_assoc, List.getLast?_append_of_ne_nil _ (by simp [hz]), ← he']
      exact hq.last

/-- What has no quotes stands on one side of a quote. -/
theorem infix_or_infix_of_infix_append (hnew : '"' ∉ new) (ht : t.head? = some '"')
    (h : new <:+: u ++ t) : new <:+: u ∨ new <:+: t := by
  induction u with
  | nil => exact .inr h
  | cons c u ih =>
    rcases List.infix_cons_iff.mp h with h | h
    · rcases prefix_append_cases (s := c :: u) h with h | ⟨r, rfl, hr⟩
      · exact .inl h.isInfix
      · cases r with
        | nil => exact .inl (by simp)
        | cons d r =>
          obtain ⟨v, rfl⟩ := hr
          cases ht
          simp at hnew
    · exact (ih h).imp_left fun h => h.trans (List.suffix_cons c u).isInfix

theorem Merged.not_infix (hq : Quoted q) (hnew : '"' ∉ new) (hp : ¬ new <:+: p)
    (hfree : ¬ new <:+: q) (h : Merged p q w) : ¬ new <:+: w := by
  cases h with
  | within => exact hp
  | @across u z v hz he he' =>
    rw [List.append_assoc, ← he']
    intro hin
    rcases infix_or_infix_of_infix_append hnew hq.head hin with hin | hin
    · exact hp (hin.trans (he ▸ (List.prefix_append u z).isInfix))
    · exact hfree hin

theorem Clear.substitute {r : List Char} (hp : Quoted p) (hq : Quoted q) (hr : r ≠ [])
    (hnew : '"' ∉ new) (hfree : ¬ new <:+: p) (hfree' : ¬ new <:+: q) (h : Clear p q s) :
    Clear p q (substitute every r new s) := by
  have hback : ∀ {w}, Quoted w → ¬ new <:+: w → w <:+: Substitution.substitute every r new s →
      w <:+: s := fun hw hnot => infix_of_infix_substitute every hr hnew hw.head hw.last hnot
  refine ⟨fun hw hin => h.left hw (hback (hw.quoted hp hq) ?_ hin),
    fun hw hin => h.right hw (hback (hw.quoted hq hp) ?_ hin)⟩
  · exact hw.not_infix hq hnew hfree hfree'
  · exact hw.not_infix hp hnew hfree' hfree

theorem Quoted.prefix_of_prefix_substitute {r : List Char} (hp : Quoted p) (hr : r ≠ [])
    (hnew : '"' ∉ new) (hfree : ¬ new <:+: p) (h : p <+: substitute every r new s) : p <+: s :=
  Substitution.prefix_of_prefix_substitute every hr hnew
    (fun _ hc => (Option.some.inj (hp.last.symm.trans hc)).symm) hfree h

-- ---------------------------------------------------------------------------
-- Two substitutions
-- ---------------------------------------------------------------------------

theorem substitute_append (hu : ∀ v, v ≠ [] → v <:+ u → ¬ p <+: v ++ t) :
    substitute every p x (u ++ t) = u ++ substitute every p x t := by
  induction u with
  | nil => rfl
  | cons c u ih =>
    have hrest := ih fun v hv hs => hu v hv (hs.trans (List.suffix_cons c u))
    have hc : ¬ p <+: c :: (u ++ t) := hu (c :: u) (by simp) List.suffix_rfl
    rw [List.cons_append, substitute_cons hc, hrest, List.cons_append]

theorem substitute_append_of_not_mem (hp : Quoted p) (hu : '"' ∉ u) :
    substitute every p x (u ++ t) = u ++ substitute every p x t := by
  refine substitute_append fun v hv hs hprefix => hu ?_
  have hhead := hp.head?_of_prefix hprefix
  rw [List.head?_append_of_ne_nil _ hv] at hhead
  exact hs.subset (List.mem_of_mem_head? hhead)

theorem substitute_append_of_clear (h : Clear p q (q ++ t)) :
    substitute every p x (q ++ t) = q ++ substitute every p x t := by
  refine substitute_append fun v hv hs hprefix => ?_
  obtain ⟨g, rfl⟩ := hs
  rcases prefix_append_cases hprefix with hin | ⟨r, rfl, hr⟩
  · have hmerged : Merged (g ++ v) p (g ++ v) :=
      .within (hin.isInfix.trans (List.suffix_append g v).isInfix)
    exact h.right hmerged (List.prefix_append _ t).isInfix
  · have hmerged : Merged (g ++ v) (v ++ r) (g ++ v ++ r) := .across hv rfl rfl
    exact h.right hmerged ((List.prefix_append_right_inj (g ++ v)).mpr hr).isInfix

/-- Two substitutions at the front of a text that begins with one of their patterns. -/
theorem substitute_comm_append (hp : Quoted p) (hq : Quoted q) (hx : '"' ∉ x)
    (h : Clear p q (p ++ t)) (ih : substitute every p x (substitute every q y t) =
      substitute every q y (substitute every p x t)) :
    substitute every p x (substitute every q y (p ++ t)) =
      substitute every q y (substitute every p x (p ++ t)) := by
  rw [substitute_append_of_clear h.symm, substitute_pattern hp.ne_nil, substitute_pattern hp.ne_nil,
    substitute_append_of_not_mem hq hx]
  cases every with
  | true => simpa using ih
  | false => rfl

theorem substitute_comm (hp : Quoted p) (hq : Quoted q) (hx : '"' ∉ x) (hy : '"' ∉ y)
    (hxq : ¬ x <:+: q) (hyp : ¬ y <:+: p) (h : Clear p q s) :
    substitute every p x (substitute every q y s) =
      substitute every q y (substitute every p x s) := by
  induction hn : s.length using Nat.strong_induction_on generalizing s with
  | _ n ih =>
    have hrest : ∀ {r t}, r ≠ [] → r ++ t = s → substitute every p x (substitute every q y t) =
        substitute every q y (substitute every p x t) := by
      rintro r t hr rfl
      have hpos := List.length_pos_iff.mpr hr
      simp only [List.length_append] at hn
      exact ih _ (by omega) (h.mono (List.suffix_append r t).isInfix) rfl
    by_cases hps : p <+: s
    · obtain ⟨t, rfl⟩ := hps
      exact substitute_comm_append hp hq hx h (hrest hp.ne_nil rfl)
    by_cases hqs : q <+: s
    · obtain ⟨t, rfl⟩ := hqs
      exact (substitute_comm_append hq hp hy h.symm (hrest hq.ne_nil rfl).symm).symm
    cases s with
    | nil => simp
    | cons c t =>
      have hpt : ¬ p <+: c :: substitute every q y t := by
        rw [← substitute_cons hqs]
        exact fun hin => hps (hp.prefix_of_prefix_substitute hq.ne_nil hy hyp hin)
      have hqt : ¬ q <+: c :: substitute every p x t := by
        rw [← substitute_cons hps]
        exact fun hin => hqs (hq.prefix_of_prefix_substitute hp.ne_nil hx hxq hin)
      rw [substitute_cons hqs, substitute_cons hps, substitute_cons hpt, substitute_cons hqt,
        hrest (r := [c]) (by simp) rfl]

-- ---------------------------------------------------------------------------
-- Rows of substitutions
-- ---------------------------------------------------------------------------

/-- A text has the literal of an address in it. -/
def Contains (location : String) (target : Address) : Prop :=
  target.literal.toList <:+: location.toList

instance decidableContains (location : String) (target : Address) :
    Decidable (Contains location target) :=
  inferInstanceAs (Decidable (_ <:+: _))

theorem quote_not_mem_literal (a : Address) : '"' ∉ a.literal.toList := by
  rw [Address.toList_literal]
  intro h
  rcases (by simpa using h : '"' ∈ a.hexChars) with h
  exact absurd (Address.isHexDigit_of_mem_hexChars h) (by decide)

theorem not_infix_quotedSpelling {location : String} {a : Address} (h : ¬ Contains location a) :
    ¬ a.literal.toList <:+: quotedSpelling location.toList := fun hin =>
  h (infix_of_infix_quotedSpelling (by simp [Address.toList_literal]) (quote_not_mem_literal a) hin)

/-- Two locations are nowhere merged between their quotes. -/
def ClearIn (code a b : String) : Prop :=
  Clear (quotedSpelling a.toList) (quotedSpelling b.toList) code.toList

theorem toList_location (every : Bool) (code a : String) (x : Address) :
    (location every code a x).toList =
      substitute every (quotedSpelling a.toList) x.literal.toList code.toList := by
  cases every <;> simp [location, locationChars, substitute]

variable {code a b : String} {x y : Address} {row : String × Address}
  {rows : List (String × Address)}

theorem location_comm (h : ClearIn code a b) (hx : ¬ Contains b x) (hy : ¬ Contains a y) :
    location every (location every code b y) a x =
      location every (location every code a x) b y := by
  apply String.toList_injective
  simp only [toList_location]
  exact substitute_comm (quoted_quotedSpelling _) (quoted_quotedSpelling _)
    (quote_not_mem_literal x) (quote_not_mem_literal y) (not_infix_quotedSpelling hx)
    (not_infix_quotedSpelling hy) h

theorem ClearIn.location {c : String} {z : Address} (h : ClearIn code a b) (ha : ¬ Contains a z)
    (hb : ¬ Contains b z) : ClearIn (location every code c z) a b := by
  unfold ClearIn
  rw [toList_location]
  exact Clear.substitute (quoted_quotedSpelling _) (quoted_quotedSpelling _)
    (quotedSpelling_ne_nil _) (quote_not_mem_literal z) (not_infix_quotedSpelling ha)
    (not_infix_quotedSpelling hb) h

/-- A row that is substituted first may as well be substituted last. -/
theorem locations_location (every : Bool) (hrow : ∀ d ∈ rows,
      ClearIn code row.1 d.1 ∧ ¬ Contains row.1 d.2 ∧ ¬ Contains d.1 row.2)
    (hrows : rows.Pairwise fun k d => ¬ Contains d.1 k.2) :
    locations every (location every code row.1 row.2) rows =
      location every (locations every code rows) row.1 row.2 := by
  induction rows generalizing code with
  | nil => rfl
  | cons d rows ih =>
    obtain ⟨hfirst, hrest⟩ := List.pairwise_cons.mp hrows
    obtain ⟨⟨hclear, hd, hr⟩, hlater⟩ := List.forall_mem_cons.mp hrow
    have hswap : location every (location every code row.1 row.2) d.1 d.2 =
        location every (location every code d.1 d.2) row.1 row.2 :=
      (location_comm hclear hr hd).symm
    rw [locations, List.foldl_cons, hswap]
    refine ih (fun e he => ?_) hrest
    obtain ⟨hclear, hfree⟩ := hlater e he
    exact ⟨hclear.location hd (hfirst e he), hfree⟩

/-- A row may pass one that stands before it: they are clear of each other, and contain no literal
that is put in before them. -/
structure Passes (code : String) (rows : List (String × Address)) (a d : String × Address) :
    Prop where
  clear : ClearIn code a.1 d.1
  free : ¬ Contains a.1 d.2
  front : ∀ k, Precedes rows k a → ¬ Contains a.1 k.2
  back : ∀ k, Precedes rows k d → ¬ Contains d.1 k.2

theorem Passes.tail {a d : String × Address} (h : Passes code (row :: rows) a d)
    (had : Precedes rows a d) : Passes (location every code row.1 row.2) rows a d where
  clear := h.clear.location (h.front row (.cons_left had.mem_left))
    (h.back row (.cons_left had.mem_right))
  free := h.free
  front k hk := h.front k (hk.mono (List.sublist_cons_self row rows))
  back k hk := h.back k (hk.mono (List.sublist_cons_self row rows))

theorem locations_append (every : Bool) (code : String) (rows others : List (String × Address)) :
    locations every code (rows ++ others) = locations every (locations every code rows) others :=
  List.foldl_append

/-- Rows of one kind may be substituted before the others if they may pass them. -/
theorem locations_filter (p : String → Bool)
    (h : ∀ a d, Precedes rows a d → p a.1 = false → p d.1 = true → Passes code rows a d) :
    locations every code (rows.filter (fun row => p row.1) ++ rows.filter fun row => !p row.1) =
      locations every code rows := by
  induction rows generalizing code with
  | nil => rfl
  | cons r rows ih =>
    have htail : ∀ {k e}, Precedes rows k e → Precedes (r :: rows) k e :=
      fun hk => hk.mono (List.sublist_cons_self r rows)
    have hrest : locations every (location every code r.1 r.2)
        (rows.filter (fun row => p row.1) ++ rows.filter fun row => !p row.1) =
        locations every (location every code r.1 r.2) rows :=
      ih fun a d had ha hd => (h a d (htail had) ha hd).tail had
    cases hr : p r.1 with
    | true => simpa [hr, locations] using hrest
    | false =>
      have hpass : ∀ d ∈ rows.filter fun row => p row.1, Passes code (r :: rows) r d := by
        intro d hmem
        obtain ⟨hmem, hd⟩ := List.mem_filter.mp hmem
        exact h r d (.cons_left hmem) hr hd
      have hrow : ∀ d ∈ rows.filter fun row => p row.1,
          ClearIn code r.1 d.1 ∧ ¬ Contains r.1 d.2 ∧ ¬ Contains d.1 r.2 := fun d hmem =>
        have hd := hpass d hmem
        ⟨hd.clear, hd.free, hd.back r (.cons_left (List.mem_of_mem_filter hmem))⟩
      have hrows : (rows.filter fun row => p row.1).Pairwise fun k d => ¬ Contains d.1 k.2 :=
        List.pairwise_iff_forall_sublist.mpr fun {k d} hkd =>
          have hd := hpass d (hkd.subset (by simp))
          hd.back k (htail (hkd.trans List.filter_sublist))
      rw [locations_append, locations_location every hrow hrows] at hrest
      rw [List.filter_cons_of_neg (by simp [hr]), List.filter_cons_of_pos (by simp [hr]),
        locations_append]
      exact hrest

end ContractLinker.Substitution
