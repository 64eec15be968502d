import ContractLinker.Proofs.Substitution
import ContractLinker.Proofs.Token.Sequence

/-!
# Substitution in rows of lexemes

Where a location stands between quotes only as a whole literal or in comments (`Whole`),
substituting in the text is substituting lexeme by lexeme: `text_map_putAll`. A comment stays
closed if no location in it opens or closes one: `commentBody_substituteAll`.
-/

namespace ContractLinker

-- ---------------------------------------------------------------------------
-- Locations between quotes
-- ---------------------------------------------------------------------------

namespace Substitution

theorem quotedSpelling_ne_nil (location : List Char) : quotedSpelling location ≠ [] := by
  simp [quotedSpelling]

theorem head?_quotedSpelling (location : List Char) :
    (quotedSpelling location).head? = some '"' := rfl

theorem getLast?_quotedSpelling (location : List Char) :
    (quotedSpelling location).getLast? = some '"' := by
  rw [quotedSpelling, List.getLast?_append_of_ne_nil _ (by simp)]
  rfl

theorem infix_of_infix_quotedSpelling {s location : List Char} (hs : s ≠ []) (hq : '"' ∉ s)
    (h : s <:+: quotedSpelling location) : s <:+: location := by
  obtain ⟨c, s, rfl⟩ := List.exists_cons_of_ne_nil hs
  rw [quotedSpelling, List.cons_append] at h
  rcases List.infix_cons_iff.mp h with h | h
  · simp [(List.cons_prefix_cons.mp h).1] at hq
  · rcases List.infix_concat_iff.mp h with h | h
    · rcases List.suffix_concat_iff.mp h with h | ⟨t, ht, -⟩
      · cases h
      · simp [ht] at hq
    · exact h

/-- The text with a literal put for each of several locations, one after the other. -/
def substituteEach (literal : List Char → List Char) (order : List (List Char))
    (s : List Char) : List Char :=
  order.foldl (fun s location => substituteAll (quotedSpelling location) (literal location) s) s

@[simp] theorem substituteEach_cons (literal : List Char → List Char) (location : List Char)
    (order : List (List Char)) (s : List Char) : substituteEach literal (location :: order) s =
      substituteEach literal order
        (substituteAll (quotedSpelling location) (literal location) s) := rfl

/-- What may be put in for a location. -/
structure Literal (s : List Char) : Prop where
  formed : (Lexeme.token .hexadecimal s).Formed
  quote : '"' ∉ s
  mark : '/' ∉ s ∧ '*' ∉ s
  line : '\n' ∉ s

theorem Literal.ne_nil {s : List Char} (h : Literal s) : s ≠ [] := by
  obtain ⟨mark, digits, -, rfl, -⟩ := Lexeme.formed_hexadecimal_iff.mp h.formed
  simp

theorem literal_address {a : Address} (h : a.bytes ≠ []) : Literal a.literal.toList := by
  have hdigit : ∀ c ∈ a.hexChars, Address.isHexDigit c = true :=
    fun c => Address.isHexDigit_of_mem_hexChars
  have hout : ∀ c : Char, Address.isHexDigit c = false → c ≠ '0' → c ≠ 'x' →
      c ∉ a.literal.toList := by
    intro c hc h0 hx hmem
    rw [Address.toList_literal] at hmem
    rcases (by simpa using hmem : c = '0' ∨ c = 'x' ∨ c ∈ a.hexChars) with he | he | he
    · exact h0 he
    · exact hx he
    · rw [hdigit c he] at hc
      cases hc
  refine ⟨?_, hout _ (by decide) (by decide) (by decide), ⟨hout _ (by decide) (by decide)
    (by decide), hout _ (by decide) (by decide) (by decide)⟩,
    hout _ (by decide) (by decide) (by decide)⟩
  rw [Address.toList_literal]
  refine Lexeme.formed_hexadecimal_iff.mpr ⟨'x', a.hexChars, .inl rfl, rfl, ?_, ?_⟩
  · intro c hc
    simp [hdigit c hc]
  · obtain ⟨c, hc⟩ := List.exists_mem_of_ne_nil _ (Address.hexChars_ne_nil h)
    refine List.any_eq_true.mpr ⟨c, hc, ?_⟩
    simpa using Address.ne_underscore_of_isHexDigit (hdigit c hc)

end Substitution

namespace Lexeme

open Substitution

-- ---------------------------------------------------------------------------
-- Lexeme by lexeme
-- ---------------------------------------------------------------------------

/-- The lexeme with a literal put for a location. -/
def put (location literal : List Char) : Lexeme → Lexeme
  | .layout s => .layout (substituteAll (quotedSpelling location) literal s)
  | .token kind s =>
    if kind = .string ∧ s = location then .token .hexadecimal literal else .token kind s

/-- Apart from comments, a location stands between quotes only as a literal of its own. -/
structure Whole (location : List Char) (ls : List Lexeme) : Prop where
  apart : ∀ before behind, ls = before ++ behind →
    ¬ Straddles (quotedSpelling location) (text before) (text behind)
  token : ∀ kind s, .token kind s ∈ ls → quotedSpelling location <:+: kind.spell s →
    kind = .string ∧ s = location

theorem whole_iff {location : List Char} {ls : List Lexeme} : Whole location ls ↔
    (∀ n ∈ List.range (ls.length + 1),
      ¬ Straddles (quotedSpelling location) (text (ls.take n)) (text (ls.drop n))) ∧
    ∀ l ∈ ls, l.content?.isSome → quotedSpelling location <:+: l.spelling →
      l = .token .string location := by
  constructor
  · intro h
    refine ⟨fun n _ => h.apart _ _ (List.take_append_drop n ls).symm, fun l hl hsome hin => ?_⟩
    cases l with
    | layout s => cases hsome
    | token kind s =>
      obtain ⟨rfl, rfl⟩ := h.token kind s hl hin
      rfl
  · rintro ⟨hapart, htoken⟩
    refine ⟨?_, fun kind s hs hin => ?_⟩
    · rintro before behind rfl
      have hn : before.length ∈ List.range ((before ++ behind).length + 1) :=
        List.mem_range.mpr (by rw [List.length_append]; omega)
      simpa using hapart before.length hn
    · cases htoken _ hs rfl hin
      exact ⟨rfl, rfl⟩

instance decidableWhole (location : List Char) (ls : List Lexeme) :
    Decidable (Whole location ls) :=
  decidable_of_iff' _ whole_iff

theorem Whole.append {location : List Char} {ls ms : List Lexeme} (h : Whole location (ls ++ ms)) :
    Whole location ls ∧ Whole location ms := by
  refine ⟨⟨?_, fun kind s hs => h.token kind s (by simp [hs])⟩,
    ⟨?_, fun kind s hs => h.token kind s (by simp [hs])⟩⟩
  · rintro before behind rfl hs
    refine h.apart before (behind ++ ms) (by simp) (hs.mono List.suffix_rfl ?_)
    rw [text_append]
    exact List.prefix_append _ _
  · rintro before behind rfl hs
    refine h.apart (ls ++ before) behind (by simp) (hs.mono ?_ List.prefix_rfl)
    rw [text_append]
    exact List.suffix_append _ _

theorem spelling_put {location literal : List Char} {l : Lexeme} (h : Whole location [l]) :
    substituteAll (quotedSpelling location) literal l.spelling =
      (l.put location literal).spelling := by
  cases l with
  | layout s => rfl
  | token kind s =>
    by_cases hs : kind = .string ∧ s = location
    · obtain ⟨rfl, rfl⟩ := hs
      have hput :
          substituteAll (quotedSpelling s) literal (quotedSpelling s ++ []) = literal ++ _ :=
        substituteAll_pattern (quotedSpelling_ne_nil s)
      rw [List.append_nil, substituteAll, List.append_nil] at hput
      rw [put, if_pos ⟨rfl, rfl⟩]
      exact hput
    · rw [put, if_neg hs, substituteAll_of_not_infix]
      exact fun hin => hs (h.token kind s (by simp) hin)

theorem text_map_put {location literal : List Char} {ls : List Lexeme} (h : Whole location ls) :
    substituteAll (quotedSpelling location) literal (text ls) =
      text (ls.map (put location literal)) := by
  induction ls with
  | nil => rw [text_nil, substituteAll]; rfl
  | cons l ls ih =>
    obtain ⟨hl, hls⟩ : Whole location [l] ∧ Whole location ls := Whole.append h
    have happ : ¬ Straddles (quotedSpelling location) l.spelling (text ls) := by
      simpa using h.apart [l] ls rfl
    rw [text_cons, substituteAll_append (quotedSpelling_ne_nil _) happ, spelling_put hl, ih hls,
      List.map_cons, text_cons]

theorem Whole.map_put {location other literal : List Char} {ls : List Lexeme}
    (h : Whole other ls) (hl : Whole location ls) (hlit : Literal literal)
    (hfree : ¬ literal <:+: other) : Whole other (ls.map (put location literal)) := by
  have hfree : ¬ literal <:+: quotedSpelling other := fun hin =>
    hfree (infix_of_infix_quotedSpelling hlit.ne_nil hlit.quote hin)
  have hne := quotedSpelling_ne_nil location
  refine ⟨?_, ?_⟩
  · rintro before behind he ⟨p, q, hp, hq, hpq, hps, hqt⟩
    obtain ⟨before, behind, rfl, rfl, rfl⟩ := List.map_eq_append_iff.mp he
    obtain ⟨hbefore, hbehind⟩ := hl.append
    rw [← text_map_put hbefore] at hps
    rw [← text_map_put hbehind] at hqt
    refine h.apart before behind rfl ⟨p, q, hp, hq, hpq, ?_, ?_⟩
    · refine suffix_of_suffix_substituteAll hne hlit.quote ?_ ?_ hps
      · intro c hc
        have hhead := head?_quotedSpelling other
        rw [← hpq, List.head?_append_of_ne_nil _ hp, hc] at hhead
        exact Option.some.inj hhead
      · exact fun hin => hfree (hin.trans (hpq ▸ List.prefix_append p q).isInfix)
    · refine prefix_of_prefix_substitute true hne hlit.quote ?_ ?_ hqt
      · intro c hc
        have hlast := getLast?_quotedSpelling other
        rw [← hpq, List.getLast?_append_of_ne_nil _ hq, hc] at hlast
        exact Option.some.inj hlast
      · exact fun hin => hfree (hin.trans (hpq ▸ List.suffix_append p q).isInfix)
  · intro kind s hs hin
    obtain ⟨l, hmem, hput⟩ := List.mem_map.mp hs
    cases l with
    | layout t => cases hput
    | token k t =>
      rw [put] at hput
      split at hput
      · cases hput
        have hmem := hin.subset (List.mem_of_mem_head? (head?_quotedSpelling other))
        exact absurd hmem hlit.quote
      · cases hput
        exact h.token kind s hmem hin

/-- The lexeme with literals put for locations, one after the other. -/
def putAll (literal : List Char → List Char) (order : List (List Char)) (l : Lexeme) : Lexeme :=
  order.foldl (fun l location => l.put location (literal location)) l

theorem text_map_putAll {literal : List Char → List Char} {order : List (List Char)}
    {ls : List Lexeme} (hw : ∀ location ∈ order, Whole location ls)
    (hlit : ∀ location ∈ order, Literal (literal location))
    (hfree : order.Pairwise fun location later => ¬ literal location <:+: later) :
    substituteEach literal order (text ls) = text (ls.map (putAll literal order)) := by
  induction order generalizing ls with
  | nil => exact (congrArg text (List.map_id' ls)).symm
  | cons location order ih =>
    obtain ⟨hfirst, hrest⟩ := List.pairwise_cons.mp hfree
    have hl := hw location (by simp)
    rw [substituteEach_cons, text_map_put hl, ih _ (fun k hk => hlit k (by simp [hk])) hrest]
    · rw [List.map_map]
      rfl
    · intro k hk
      exact (hw k (by simp [hk])).map_put hl (hlit location (by simp)) (hfirst k hk)

theorem putAll_layout (literal : List Char → List Char) (order : List (List Char))
    (s : List Char) :
    putAll literal order (.layout s) = .layout (substituteEach literal order s) := by
  induction order generalizing s with
  | nil => rfl
  | cons location order ih => exact ih _

theorem putAll_token (literal : List Char → List Char) (order : List (List Char))
    (kind : Token.Kind) (s : List Char) : putAll literal order (.token kind s) =
      if kind = .string ∧ s ∈ order then .token .hexadecimal (literal s) else .token kind s := by
  induction order generalizing kind s with
  | nil => simp [putAll]
  | cons location order ih =>
    rw [putAll, List.foldl_cons, ← putAll, put]
    by_cases hs : kind = .string ∧ s = location
    · obtain ⟨rfl, rfl⟩ := hs
      simp [ih]
    · rw [if_neg hs, ih]
      simp only [List.mem_cons]
      congr 1
      grind

-- ---------------------------------------------------------------------------
-- Comments
-- ---------------------------------------------------------------------------

/-- Neither opens nor closes a comment. -/
def Unmarked (s : List Char) : Prop := ¬ ['/', '*'] <:+: s ∧ ¬ ['*', '/'] <:+: s

theorem Unmarked.tail {c : Char} {s : List Char} (h : Unmarked (c :: s)) : Unmarked s :=
  ⟨fun hin => h.1 (hin.trans (List.suffix_cons c s).isInfix),
    fun hin => h.2 (hin.trans (List.suffix_cons c s).isInfix)⟩

theorem Unmarked.quotedSpelling {location : List Char} (h : Unmarked location) :
    Unmarked (quotedSpelling location) := by
  have hmark : ∀ c d : Char, c ≠ '"' → d ≠ '"' → ¬ [c, d] <:+: location →
      ¬ [c, d] <:+: Substitution.quotedSpelling location := by
    intro c d hc hd hnot hin
    exact hnot (infix_of_infix_quotedSpelling (by simp) (by simp [hc.symm, hd.symm]) hin)
  exact ⟨hmark _ _ (by decide) (by decide) h.1, hmark _ _ (by decide) (by decide) h.2⟩

theorem Unmarked.literal {s : List Char} (h : Literal s) : Unmarked s :=
  ⟨fun hin => h.mark.1 (hin.subset (by simp)), fun hin => h.mark.1 (hin.subset (by simp))⟩

theorem commentBody_unmarked {s : List Char} (hs : Unmarked s)
    (hlast : ∀ c ∈ s.getLast?, c ≠ '/' ∧ c ≠ '*') (depth : Nat) (rest : List Char) :
    commentBody depth (s ++ rest) = (commentBody depth rest).map fun r => (s ++ r.1, r.2) := by
  induction s with
  | nil => simp
  | cons c s ih =>
    have hmark : ∀ d e, (d = '/' ∨ d = '*') → ¬ [d, e] <:+: c :: s → c = d →
        ∀ more, s ++ rest ≠ e :: more := by
      rintro d e hd hnot rfl more he
      cases s with
      | nil => obtain ⟨h₁, h₂⟩ := hlast c rfl; exact hd.elim h₁ h₂
      | cons f s =>
        cases he
        exact hnot ⟨[], s, rfl⟩
    have hrest : ∀ d ∈ s.getLast?, d ≠ '/' ∧ d ≠ '*' := by
      intro d hd
      cases s with
      | nil => cases hd
      | cons e s => exact hlast d (by rwa [List.getLast?_cons_cons])
    rw [List.cons_append, commentBody.eq_5, ih hs.tail hrest, Option.map_map]
    · rfl
    · exact fun more hc he => hmark '/' '*' (.inl rfl) hs.1 hc more he
    · exact fun more _ hc he => hmark '*' '/' (.inr rfl) hs.2 hc more he
    · exact fun _ more _ hc he => hmark '*' '/' (.inr rfl) hs.2 hc more he

theorem commentBody_quotedSpelling {location : List Char} (h : Unmarked location) (depth : Nat)
    (rest : List Char) : commentBody depth (quotedSpelling location ++ rest) =
      (commentBody depth rest).map fun r => (quotedSpelling location ++ r.1, r.2) := by
  refine commentBody_unmarked h.quotedSpelling (fun c hc => ?_) depth rest
  rw [getLast?_quotedSpelling] at hc
  cases hc
  decide

theorem commentBody_literal {literal : List Char} (h : Literal literal) (depth : Nat)
    (rest : List Char) : commentBody depth (literal ++ rest) =
      (commentBody depth rest).map fun r => (literal ++ r.1, r.2) := by
  refine commentBody_unmarked (.literal h) (fun c hc => ?_) depth rest
  have hmem := List.mem_of_getLast? hc
  exact ⟨fun he => h.mark.1 (he ▸ hmem), fun he => h.mark.2 (he ▸ hmem)⟩

end Lexeme

namespace Substitution

theorem mem_substituteAll {pattern new s : List Char} (hne : pattern ≠ []) {c : Char}
    (h : c ∈ substituteAll pattern new s) : c ∈ new ∨ c ∈ s := by
  induction s using occurrences hne with
  | nil => rw [substituteAll] at h; cases h
  | put s ih =>
    rw [substituteAll_pattern hne] at h
    rcases List.mem_append.mp h with h | h
    · exact .inl h
    · exact (ih h).imp_right fun hs => by simp [hs]
  | keep d s hp ih =>
    rw [substituteAll_cons hp] at h
    rcases List.mem_cons.mp h with rfl | h
    · exact .inr (by simp)
    · exact (ih h).imp_right fun hs => by simp [hs]

theorem exists_of_substituteAll_eq_cons {pattern new s t : List Char} {c : Char}
    (hne : pattern ≠ []) (hnew : new ≠ []) (hc : c ∉ new)
    (h : substituteAll pattern new s = c :: t) : ∃ t', s = c :: t' := by
  induction s using occurrences hne with
  | nil => rw [substituteAll] at h; cases h
  | put s _ =>
    obtain ⟨d, more, rfl⟩ := List.exists_cons_of_ne_nil hnew
    rw [substituteAll_pattern hne] at h
    cases h
    simp at hc
  | keep d s hp _ =>
    rw [substituteAll_cons hp] at h
    cases h
    exact ⟨s, rfl⟩

theorem substituteAll_cons_of_ne_quote {location new s : List Char} {c : Char} (hc : c ≠ '"') :
    substituteAll (quotedSpelling location) new (c :: s) =
      c :: substituteAll (quotedSpelling location) new s := by
  refine substituteAll_cons fun hp => hc ?_
  rw [quotedSpelling, List.cons_append] at hp
  exact (List.cons_prefix_cons.mp hp).1.symm

end Substitution

namespace Lexeme

open Substitution

theorem commentBody_of_map (mark : List Char) {s : List Char} {depth : Nat}
    (h : (commentBody depth s).map (fun r => (mark ++ r.1, r.2)) = some (mark ++ s, [])) :
    commentBody depth s = some (s, []) := by
  obtain ⟨⟨body, behind⟩, hr, he⟩ := Option.map_eq_some_iff.mp h
  obtain ⟨hbody, rfl⟩ := Prod.mk.inj he
  obtain rfl : body = s := List.append_cancel_left hbody
  exact hr

theorem commentBody_substituteAll {location literal s : List Char} {depth : Nat}
    (hlit : Literal literal) (hmark : quotedSpelling location <:+: s → Unmarked location)
    (h : commentBody depth s = some (s, [])) :
    commentBody depth (substituteAll (quotedSpelling location) literal s) =
      some (substituteAll (quotedSpelling location) literal s, []) := by
  have hne := quotedSpelling_ne_nil location
  induction hn : s.length using Nat.strong_induction_on generalizing s depth with
  | _ n ih =>
    have hstep : ∀ {t : List Char}, t <:+ s → t.length < s.length → ∀ {depth : Nat},
        commentBody depth t = some (t, []) →
        commentBody depth (substituteAll (quotedSpelling location) literal t) =
          some (substituteAll (quotedSpelling location) literal t, []) := fun ht hlt _ hbody =>
      ih _ (hn ▸ hlt) (fun hin => hmark (hin.trans ht.isInfix)) hbody rfl
    by_cases hp : quotedSpelling location <+: s
    · obtain ⟨rest, rfl⟩ := hp
      have hlt : rest.length < (quotedSpelling location ++ rest).length := by
        simpa using List.length_pos_iff.mpr hne
      rw [commentBody_quotedSpelling (hmark (List.prefix_append _ _).isInfix)] at h
      rw [substituteAll_pattern hne, commentBody_literal hlit,
        hstep (List.suffix_append _ _) hlt (commentBody_of_map _ h)]
      rfl
    · unfold commentBody at h
      split at h
      · cases h
      · next rest =>
        rw [substituteAll_cons_of_ne_quote (by decide), substituteAll_cons_of_ne_quote (by decide),
          commentBody, hstep ⟨['/', '*'], rfl⟩ (by simp only [List.length_cons]; omega)
            (commentBody_of_map ['/', '*'] h)]
        rfl
      · cases h
        rw [substituteAll_cons_of_ne_quote (by decide), substituteAll_cons_of_ne_quote (by decide),
          substituteAll]
        rfl
      · next rest =>
        rw [substituteAll_cons_of_ne_quote (by decide), substituteAll_cons_of_ne_quote (by decide),
          commentBody, hstep ⟨['*', '/'], rfl⟩ (by simp only [List.length_cons]; omega)
            (commentBody_of_map ['*', '/'] h)]
        rfl
      · next c rest hopen hclose hcloses =>
        have hnext : ∀ d more, d ∉ literal →
            substituteAll (quotedSpelling location) literal rest = d :: more →
            ∃ more', rest = d :: more' := fun d more hd =>
          exists_of_substituteAll_eq_cons hne hlit.ne_nil hd
        rw [substituteAll_cons hp, commentBody.eq_5,
          hstep (List.suffix_cons c rest) (by simp) (commentBody_of_map [c] h)]
        · rfl
        · intro more hc he
          obtain ⟨more', he⟩ := hnext _ _ hlit.mark.2 he
          exact hopen more' hc he
        · intro more h0 hc he
          obtain ⟨more', he⟩ := hnext _ _ hlit.mark.1 he
          exact hclose more' h0 hc he
        · intro k more hk hc he
          obtain ⟨more', he⟩ := hnext _ _ hlit.mark.1 he
          exact hcloses k more' hk hc he

end Lexeme

end ContractLinker
