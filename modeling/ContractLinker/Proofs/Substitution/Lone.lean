import ContractLinker.Proofs.Substitution.Rewriting

/-!
# Lone locations

A location that stands between quotes only once, with blanks around it (`Lone`), leaves room for a
literal: `replaceable_of_lone`. Substituting at first occurrences is then the same as substituting
at all of them: `foldl_substituteFirst`.
-/

namespace ContractLinker

namespace Substitution

/-- A pattern occurs at most once. -/
def AtMostOnce (pattern s : List Char) : Prop :=
  ∀ u v u' v', s = u ++ pattern ++ v → s = u' ++ pattern ++ v' → u = u'

theorem atMostOnce_iff {pattern s : List Char} : AtMostOnce pattern s ↔
    ∀ m ∈ List.range (s.length + 1), ∀ n ∈ List.range (s.length + 1),
      pattern <+: s.drop m → pattern <+: s.drop n → m = n := by
  constructor
  · intro h m hm n hn hpm hpn
    obtain ⟨t, ht⟩ := hpm
    obtain ⟨t', ht'⟩ := hpn
    have hsame := congrArg List.length (h (s.take m) t (s.take n) t'
      (by rw [List.append_assoc, ht, List.take_append_drop])
      (by rw [List.append_assoc, ht', List.take_append_drop]))
    rw [List.mem_range] at hm hn
    rw [List.length_take, List.length_take] at hsame
    omega
  · intro h u v u' v' hu hu'
    have hlen := congrArg List.length hu
    have hlen' := congrArg List.length hu'
    simp only [List.length_append] at hlen hlen'
    have hsame := h u.length (by rw [List.mem_range]; omega) u'.length
      (by rw [List.mem_range]; omega) ⟨v, by simp [hu]⟩ ⟨v', by simp [hu']⟩
    have htake : u = s.take u.length := by simp [hu]
    rw [htake, hsame]
    simp [hu']

instance decidableAtMostOnce (pattern s : List Char) : Decidable (AtMostOnce pattern s) :=
  decidable_of_iff' _ atMostOnce_iff

/-- A location stands between quotes once, with blanks around it. -/
structure Lone (location s : List Char) : Prop where
  once : AtMostOnce (quotedSpelling location) s
  blank : ∃ u v, s = u ++ quotedSpelling location ++ v ∧
    (∀ c ∈ u.getLast?, Lexeme.isLayout c = true) ∧ ∀ c ∈ v.head?, Lexeme.isLayout c = true

theorem AtMostOnce.substituteAll {location other new s : List Char}
    (h : AtMostOnce (quotedSpelling other) s) (hlit : Literal new) (hfree : ¬ new <:+: other) :
    AtMostOnce (quotedSpelling other) (substituteAll (quotedSpelling location) new s) := by
  intro u v u' v' hu hu'
  have hfree : ¬ new <:+: quotedSpelling other := fun hin =>
    hfree (infix_of_infix_quotedSpelling hlit.ne_nil hlit.quote hin)
  have hne := quotedSpelling_ne_nil location
  have hhead := head?_quotedSpelling other
  have hlast := getLast?_quotedSpelling other
  obtain ⟨u₀, v₀, he, rfl⟩ := exists_of_substituteAll_eq hne hlit.quote hhead hlast hfree hu
  obtain ⟨u₁, v₁, he', rfl⟩ := exists_of_substituteAll_eq hne hlit.quote hhead hlast hfree hu'
  rw [h u₀ v₀ u₁ v₁ he he']

theorem foldl_substituteFirst {literal : List Char → List Char} {order : List (List Char)}
    {s : List Char} (honce : ∀ location ∈ order, AtMostOnce (quotedSpelling location) s)
    (hlit : ∀ location ∈ order, Literal (literal location))
    (hfree : order.Pairwise fun location later => ¬ literal location <:+: later) :
    order.foldl (fun s location => substituteFirst (quotedSpelling location) (literal location) s) s
      = substituteEach literal order s := by
  induction order generalizing s with
  | nil => rfl
  | cons location order ih =>
    obtain ⟨hfirst, hrest⟩ := List.pairwise_cons.mp hfree
    have hl := hlit location (by simp)
    rw [List.foldl_cons, substituteFirst_eq (quotedSpelling_ne_nil location)
      (honce location (by simp)), substituteEach_cons]
    refine ih (fun k hk => ?_) (fun k hk => hlit k (by simp [hk])) hrest
    exact (honce k (by simp [hk])).substituteAll hl (hfirst k hk)

end Substitution

namespace Lexeme

open Substitution

variable {location : List Char} {l : Lexeme} {ls before behind : List Lexeme}

theorem spelling_string (s : List Char) :
    (Lexeme.token .string s).spelling = quotedSpelling s := rfl

/-- A lone location is read as the literal that it is part of. -/
theorem eq_of_infix_spelling (h : AtMostOnce (quotedSpelling location) (text ls))
    (hmem : .token .string location ∈ ls) (he : ls = before ++ l :: behind)
    (hin : quotedSpelling location <:+: l.spelling) : l = .token .string location := by
  obtain ⟨x, y, hl⟩ := hin
  obtain ⟨b, r, hb⟩ := List.append_of_mem hmem
  have hsame : text b = text before ++ x := by
    refine h _ (text r) _ (y ++ text behind) ?_ ?_
    · simp [hb, spelling_string]
    · simp [he, ← hl]
  have hlen := congrArg List.length hsame
  have hlen' := congrArg List.length hl
  rcases List.append_eq_append_iff.mp (he.symm.trans hb) with ⟨as, rfl, has⟩ | ⟨bs, rfl, hbs⟩
  · cases as with
    | nil => exact (List.cons.inj has).1
    | cons m as =>
      obtain rfl := (List.cons.inj has).1
      simp only [text_append, text_cons, List.length_append] at hlen hlen'
      have hpos := List.length_pos_iff.mpr (quotedSpelling_ne_nil location)
      omega
  · cases bs with
    | nil => exact (List.cons.inj hbs).1.symm
    | cons m bs =>
      obtain rfl := (List.cons.inj hbs).1
      simp only [text_append, text_cons, List.length_append, spelling_string] at hlen
      have hpos := List.length_pos_iff.mpr (quotedSpelling_ne_nil location)
      omega

theorem not_straddles_of_once (h : AtMostOnce (quotedSpelling location) (text ls))
    (hmem : .token .string location ∈ ls) (he : ls = before ++ behind) :
    ¬ Straddles (quotedSpelling location) (text before) (text behind) := by
  rintro ⟨p, q, hp, hq, hpq, ⟨x, hx⟩, ⟨y, hy⟩⟩
  obtain ⟨b, r, hb⟩ := List.append_of_mem hmem
  have hsame : text b = x := by
    refine h _ (text r) _ y ?_ ?_
    · simp [hb, spelling_string]
    · simp [he, ← hx, ← hy, ← hpq]
  have hlen := congrArg List.length hx
  have hlen' := congrArg List.length hpq
  have hsame := congrArg List.length hsame
  have hpos := List.length_pos_iff.mpr hp
  have hpos' := List.length_pos_iff.mpr hq
  rcases List.append_eq_append_iff.mp (he.symm.trans hb) with ⟨as, rfl, -⟩ | ⟨bs, rfl, hbs⟩
  · simp only [text_append, List.length_append] at hlen hsame
    omega
  · cases bs with
    | nil =>
      simp only [text_append, text_nil, List.length_append, List.length_nil] at hlen hsame
      omega
    | cons m bs =>
      obtain rfl := (List.cons.inj hbs).1
      simp only [text_append, text_cons, List.length_append, spelling_string] at hlen hlen' hsame
      omega

/-- What stands beside a lone location in a row is blank. -/
theorem blank_of_lone (h : Lone location (text ls))
    (he : ls = before ++ .token .string location :: behind) :
    (∀ c ∈ (text before).getLast?, isLayout c = true) ∧
      ∀ c ∈ (text behind).head?, isLayout c = true := by
  obtain ⟨u, v, hs, hu, hv⟩ := h.blank
  have htext : text ls = text before ++ quotedSpelling location ++ text behind := by
    simp [he, spelling_string]
  obtain rfl := h.once _ _ _ _ htext hs
  have hrest : text behind = v := List.append_cancel_left (htext.symm.trans hs)
  exact ⟨hu, hrest ▸ hv⟩

theorem loose_of_lone {locations : List (List Char)} (hrow : IsRow ls)
    (h : ∀ location ∈ locations, Lone location (text ls)) : Loose locations ls := by
  have hfront : ∀ l s, [l, .token .string s] <:+: ls → s ∈ locations →
      ∀ c ∈ l.spelling.getLast?, isLayout c = true := by
    rintro l s ⟨before, behind, he⟩ hs c hc
    have hne := (hrow.formed (by simp [← he] : l ∈ ls)).spelling_ne_nil
    have he : ls = before ++ [l] ++ .token .string s :: behind := by simp [← he]
    refine (blank_of_lone (h s hs) he).1 c ?_
    rw [text_append, text_cons, text_nil, List.append_nil, List.getLast?_append_of_ne_nil _ hne]
    exact hc
  have hback : ∀ s l, [.token .string s, l] <:+: ls → s ∈ locations →
      ∀ c ∈ l.spelling.head?, isLayout c = true := by
    rintro s l ⟨before, behind, he⟩ hs c hc
    have hne := (hrow.formed (by simp [← he] : l ∈ ls)).spelling_ne_nil
    have he : ls = before ++ .token .string s :: (l :: behind) := by simp [← he]
    refine (blank_of_lone (h s hs) he).2 c ?_
    rw [text_cons, List.head?_append_of_ne_nil _ hne]
    exact hc
  refine ⟨?_, ?_, ?_, ?_⟩
  · intro l s hin hs c hc
    exact isWordPart_of_isLayout (hfront l s hin hs c hc)
  · intro s l hin hs c hc
    exact isWordPart_of_isLayout (hback s l hin hs c hc)
  · intro s t hin hs _
    exact absurd (hback s _ hin hs '"' rfl) (by decide)
  · intro number s hin hs
    have hin : [.token .dot ['.'], .token .string s] <:+: ls :=
      (List.suffix_cons _ _).isInfix.trans hin
    exact absurd (hfront _ s hin hs '.' rfl) (by decide)

theorem replaceable_of_lone {locations : List (List Char)} (hrow : IsRow ls)
    (hmem : ∀ location ∈ locations, .token .string location ∈ ls)
    (h : ∀ location ∈ locations, Lone location (text ls)) : Replaceable locations ls := by
  refine ⟨?_, ?_, loose_of_lone hrow h⟩
  · intro location hl
    have honce := (h location hl).once
    refine ⟨fun before behind he => not_straddles_of_once honce (hmem location hl) he, ?_⟩
    intro kind s hs hin
    obtain ⟨before, behind, he⟩ := List.append_of_mem hs
    have heq := eq_of_infix_spelling honce (hmem location hl) he hin
    cases heq
    exact ⟨rfl, rfl⟩
  · intro location hl s hs hin
    obtain ⟨before, behind, he⟩ := List.append_of_mem hs
    have hin : quotedSpelling location <:+: (Lexeme.layout ('/' :: '*' :: s)).spelling :=
      hin.trans ⟨['/', '*'], [], by simp [spelling]⟩
    cases eq_of_infix_spelling (h location hl).once (hmem location hl) he hin

theorem substituteEach_of_not_infix {literal : List Char → List Char} {order : List (List Char)}
    {s : List Char} (h : ∀ location ∈ order, ¬ quotedSpelling location <:+: s) :
    substituteEach literal order s = s := by
  induction order with
  | nil => rfl
  | cons location order ih =>
    rw [substituteEach_cons, substituteAll_of_not_infix (h location (by simp)),
      ih fun k hk => h k (by simp [hk])]

/-- Lone locations may be substituted in any order. -/
theorem map_putAll_of_lone {literal : List Char → List Char} {order order' : List (List Char)}
    (hsame : ∀ s, s ∈ order ↔ s ∈ order')
    (hmem : ∀ location ∈ order, .token .string location ∈ ls)
    (h : ∀ location ∈ order, Lone location (text ls)) :
    ls.map (putAll literal order) = ls.map (putAll literal order') := by
  refine List.map_congr_left fun l hl => ?_
  cases l with
  | token kind s => simp only [putAll_token, hsame]
  | layout s =>
    have hnot : ∀ location ∈ order, ¬ quotedSpelling location <:+: s := by
      intro location hlocation hin
      obtain ⟨before, behind, he⟩ := List.append_of_mem hl
      cases eq_of_infix_spelling (h location hlocation).once (hmem location hlocation) he hin
    rw [putAll_layout, putAll_layout, substituteEach_of_not_infix hnot,
      substituteEach_of_not_infix fun location hlocation => hnot location ((hsame _).mpr hlocation)]

end Lexeme

end ContractLinker
