import ContractLinker.Proofs.Substitution.Row
import Mathlib.Data.List.Forall2

/-!
# Rewritten rows

`IsRow.rewritten`: a row in which literals stand for locations is a row again if no location gives
way right beside a word, a number or another location (`Loose`), and comments stay comments.
-/

namespace ContractLinker.Lexeme

open Substitution

/-- The locations leave room for literals: no word part stands before or behind them, nor another
location, nor a point that goes on a number. -/
structure Loose (locations : List (List Char)) (ls : List Lexeme) : Prop where
  front : ∀ l s, [l, .token .string s] <:+: ls → s ∈ locations →
    ∀ c ∈ l.spelling.getLast?, isWordPart c = false
  back : ∀ s l, [.token .string s, l] <:+: ls → s ∈ locations → Stops isWordPart l.spelling
  apart : ∀ s t, [.token .string s, .token .string t] <:+: ls → s ∈ locations → t ∉ locations
  point : ∀ number s, [.token .number number, .token .dot ['.'], .token .string s] <:+: ls →
    s ∈ locations → number.all isNumberPart = false

theorem Loose.mono {locations some : List (List Char)} {ls ms : List Lexeme}
    (h : Loose locations ls) (hs : ∀ s ∈ some, s ∈ locations) (hms : ms <:+: ls) :
    Loose some ms := by
  refine ⟨?_, ?_, ?_, ?_⟩
  · exact fun l s hin hm => h.front l s (hin.trans hms) (hs s hm)
  · exact fun s l hin hm => h.back s l (hin.trans hms) (hs s hm)
  · exact fun s t hin hm ht => h.apart s t (hin.trans hms) (hs s hm) (hs t ht)
  · exact fun number s hin hm => h.point number s (hin.trans hms) (hs s hm)

/-- What may become of a lexeme. -/
inductive Rewritten (literal : List Char → List Char) (locations : List (List Char)) :
    Lexeme → Lexeme → Prop
  | same (l : Lexeme) : Rewritten literal locations l l
  | literal {s : List Char} : s ∈ locations → Literal (literal s) →
      Rewritten literal locations (.token .string s) (.token .hexadecimal (literal s))
  | lineComment {s t : List Char} : (∀ c ∈ t, c ≠ '\n') →
      Rewritten literal locations (.layout ('/' :: '/' :: s)) (.layout ('/' :: '/' :: t))
  | blockComment {s t : List Char} : commentBody 0 t = some (t, []) →
      Rewritten literal locations (.layout ('/' :: '*' :: s)) (.layout ('/' :: '*' :: t))

variable {literal : List Char → List Char} {locations : List (List Char)} {l l' : Lexeme}
  {ls ls' : List Lexeme}

theorem Rewritten.formed (h : Rewritten literal locations l l') (hl : l.Formed) : l'.Formed := by
  cases h with
  | same => exact hl
  | literal _ hlit => exact hlit.formed
  | lineComment ht => exact .lineComment ht
  | blockComment ht => exact .blockComment ht

/-- What stands first in a row that was rewritten stood there before, or is a literal. -/
theorem head?_text_of_rewritten (h : List.Forall₂ (Rewritten literal locations) ls ls')
    (hf : ∀ l ∈ ls, l.Formed) :
    (text ls').head? = (text ls).head? ∨ ∃ s rest, ls = .token .string s :: rest ∧
      s ∈ locations ∧ (text ls').head? = some '0' := by
  cases h with
  | nil => exact .inl rfl
  | @cons l l' ls ls' hl _ =>
    cases hl with
    | same =>
      have hne := (hf l (by simp)).spelling_ne_nil
      left
      rw [text_cons, text_cons, List.head?_append_of_ne_nil _ hne,
        List.head?_append_of_ne_nil _ hne]
    | literal hs hlit =>
      obtain ⟨mark, digits, -, he, -⟩ := formed_hexadecimal_iff.mp hlit.formed
      refine .inr ⟨_, ls, rfl, hs, ?_⟩
      simp [spelling, Token.Kind.spell, he]
    | lineComment | blockComment => exact .inl rfl

theorem isWordPart_of_isWordStart {c : Char} (h : isWordStart c = true) : isWordPart c = true := by
  rcases Bool.or_eq_true_iff.mp h with h | h <;> simp [isWordPart, h]

theorem isWordPart_of_isDigit {c : Char} (h : Text.isDigit c = true) : isWordPart c = true :=
  isWordPart_of_isNumberPart (by simp [isNumberPart, h])

theorem NumberText.head {kind : Token.Kind} {c : Char} {s : List Char}
    (h : NumberText kind (c :: s)) : Text.isDigit c = true := by
  generalize ht : c :: s = t at h
  cases h with
  | whole hc => cases ht; exact hc
  | fraction hc => cases ht; exact hc
  | radix => cases ht; decide +kernel

theorem NumberText.last {kind : Token.Kind} {s : List Char} (h : NumberText kind s) :
    ∀ c ∈ s.getLast?, isWordPart c = true := by
  have hlast : ∀ {d : Char} {t : List Char}, isWordPart d = true →
      (∀ e ∈ t, isWordPart e = true) → ∀ c ∈ (d :: t).getLast?, isWordPart c = true := by
    intro d t hd ht c hc
    rcases List.mem_cons.mp (List.mem_of_getLast? hc) with rfl | hc
    · exact hd
    · exact ht c hc
  cases h with
  | whole hc hs =>
    exact hlast (isWordPart_of_isDigit hc) fun e he => isWordPart_of_isNumberPart (hs e he)
  | fraction _ _ hd ht =>
    intro c hc
    rw [List.getLast?_append_of_ne_nil _ (by simp), List.getLast?_cons_cons] at hc
    exact hlast (isWordPart_of_isDigit hd) (fun e he => isWordPart_of_isNumberPart (ht e he)) c hc
  | radix hp hs =>
    intro c hc
    rw [List.getLast?_cons_cons] at hc
    exact hlast (radixDigits?_mark hp).2 (fun e he => radixDigits?_digit hp (hs e he)) c hc

theorem Formed.eq_dot (h : l.Formed) (hd : l.spelling.head? = some '.') :
    l = .token .dot ['.'] := by
  cases h with
  | blank hc => cases hd; exact absurd hc (by decide)
  | lineComment | blockComment => cases hd
  | word hc =>
    rw [spelling, Token.Kind.spell_of_ne_string (wordKind_ne_string _)] at hd
    cases hd
    exact absurd hc (by decide +kernel)
  | number _ ht =>
    rw [spelling, Token.Kind.spell_of_ne_string ht.ne_string] at hd
    cases hd
    exact absurd ht.head (by decide +kernel)
  | string => simp [spelling, Token.Kind.spell] at hd
  | symbol hk =>
    rw [spelling, Token.Kind.spell_of_ne_string (symbol?_ne_string hk)] at hd
    cases hd
    cases hk
    rfl

theorem Stops.congr {p : Char → Bool} {b b' : List Char} (h : Stops p b)
    (hb : b'.head? = b.head?) : Stops p b' := fun c hc => h c (hb ▸ hc)

/-- Only the first character behind a lexeme counts, and the next one where a number may go on. -/
theorem Fits.congr {b b' : List Char} (h : l.Fits b) (hb : b'.head? = b.head?)
    (hp : ∀ s, l = .token .number s → s.all isNumberPart = true → Point b' → Point b) :
    l.Fits b' := by
  unfold Fits at h ⊢
  split
  case h_5 s => exact ⟨h.1.congr hb, fun hall hpoint => h.2 hall (hp s rfl hall hpoint)⟩
  case h_7 => trivial
  all_goals exact h.congr hb

/-- A literal may stand where a quote stood, unless a word or a number ends there. -/
theorem Fits.of_quote {b b' : List Char} (hl : l.Formed) (h : l.Fits b) (hb : b.head? = some '"')
    (hb' : b'.head? = some '0') (hlast : ∀ c ∈ l.spelling.getLast?, isWordPart c = false) :
    l.Fits b' := by
  have hclash : ∀ {s : List Char}, s ≠ [] → (∀ c ∈ s.getLast?, isWordPart c = true) →
      ¬ ∀ c ∈ s.getLast?, isWordPart c = false := by
    intro s hs hpart hnot
    have hmem : s.getLast hs ∈ s.getLast? := List.getLast?_eq_some_getLast hs
    have hfalse := hnot _ hmem
    rw [hpart _ hmem] at hfalse
    cases hfalse
  cases hl with
  | blank => exact fits_blank
  | lineComment => exact absurd (h '"' hb) (by decide)
  | blockComment | string => trivial
  | @word c s hc hs =>
    rw [spelling, Token.Kind.spell_of_ne_string (wordKind_ne_string _)] at hlast
    refine absurd hlast (hclash (by simp) fun d hd => ?_)
    rcases List.mem_cons.mp (List.mem_of_getLast? hd) with rfl | hd
    · exact isWordPart_of_isWordStart hc
    · exact hs d hd
  | number _ ht =>
    rw [spelling, Token.Kind.spell_of_ne_string ht.ne_string] at hlast
    exact absurd hlast (hclash (by simp) ht.last)
  | @symbol c kind hk =>
    by_cases hc : c = '/'
    · subst hc
      cases hk
      intro d hd
      rw [hb'] at hd
      cases hd
      decide
    · exact fits_symbol hk hc

/-- A point that goes on a number did so before, or a literal now stands behind it. -/
theorem point_of_rewritten (h : List.Forall₂ (Rewritten literal locations) ls ls')
    (hf : ∀ l ∈ ls, l.Formed) (hp : Point (text ls')) : Point (text ls) ∨
      ∃ s rest, ls = .token .dot ['.'] :: .token .string s :: rest ∧ s ∈ locations := by
  obtain ⟨d, more, he, hd⟩ := hp
  have hdot : (text ls').head? = some '.' := by rw [he]; rfl
  rcases head?_text_of_rewritten h hf with hhead | ⟨s, rest, -, -, hzero⟩
  · cases h with
    | nil => cases hdot
    | @cons l l' ls ls' hl hls =>
      have hl : l = .token .dot ['.'] := by
        refine (hf l (by simp)).eq_dot ?_
        rw [← List.head?_append_of_ne_nil _ (hf l (by simp)).spelling_ne_nil, ← text_cons, ← hhead,
          hdot]
      subst hl
      cases ‹Rewritten _ _ _ _›
      have hnext : text ls' = d :: more := (List.cons.inj he).2
      rcases head?_text_of_rewritten hls fun m hm => hf m (by simp [hm]) with
        hhead | ⟨s, rest, rfl, hs, -⟩
      · rw [hnext] at hhead
        obtain ⟨tail, htail⟩ := List.head?_eq_some_iff.mp hhead.symm
        exact .inl ⟨d, tail, by rw [text_cons, htail]; rfl, hd⟩
      · exact .inr ⟨s, rest, rfl, hs⟩
  · rw [hzero] at hdot
    cases hdot

theorem IsRow.rewritten (h : IsRow ls) (hl : Loose locations ls)
    (hr : List.Forall₂ (Rewritten literal locations) ls ls') : IsRow ls' := by
  induction hr with
  | nil => trivial
  | @cons l l' ls ls' hll' hls ih =>
    obtain ⟨hformed, hfits, hrow⟩ := h
    have htail := hl.mono (fun _ => id) (List.suffix_cons l ls).isInfix
    refine ⟨hll'.formed hformed, ?_, ih hrow htail⟩
    rcases head?_text_of_rewritten hls fun m => hrow.formed with hhead | ⟨s, rest, rfl, hs, hzero⟩
    · cases hll' with
      | same =>
        refine hfits.congr hhead ?_
        rintro number rfl hall hpoint
        rcases point_of_rewritten hls (fun m => hrow.formed) hpoint with hp | ⟨s, rest, rfl, hs⟩
        · exact hp
        · rw [hl.point number s ⟨[], rest, rfl⟩ hs] at hall
          cases hall
      | @literal s hs _ =>
        refine Stops.congr ?_ hhead
        cases ls with
        | nil => exact fun c hc => nomatch hc
        | cons m ls =>
          intro c hc
          rw [text_cons, List.head?_append_of_ne_nil _ (hrow.1).spelling_ne_nil] at hc
          exact hl.back s m ⟨[], ls, rfl⟩ hs c hc
      | lineComment => exact Stops.congr hfits hhead
      | blockComment => trivial
    · have hquote : (text (.token .string s :: rest)).head? = some '"' := rfl
      cases hll' with
      | same => exact hfits.of_quote hformed hquote hzero (hl.front l s ⟨[], rest, rfl⟩ hs)
      | @literal t ht _ => exact absurd hs (hl.apart t s ⟨[], rest, rfl⟩ ht)
      | lineComment => exact absurd (hfits '"' hquote) (by decide)
      | blockComment => trivial

-- ---------------------------------------------------------------------------
-- Substituted rows
-- ---------------------------------------------------------------------------

theorem substituteEach_cons_of_ne_quote {order : List (List Char)} {c : Char} (hc : c ≠ '"')
    (s : List Char) :
    substituteEach literal order (c :: s) = c :: substituteEach literal order s := by
  induction order generalizing s with
  | nil => rfl
  | cons location order ih =>
    rw [substituteEach_cons, substituteAll_cons_of_ne_quote hc, ih, substituteEach_cons]

theorem substituteEach_empty (literal : List Char → List Char) (order : List (List Char)) :
    substituteEach literal order [] = [] := by
  induction order with
  | nil => rfl
  | cons location order ih => rw [substituteEach_cons, substituteAll, ih]

theorem mem_substituteEach {order : List (List Char)} {c : Char} {s : List Char}
    (h : c ∈ substituteEach literal order s) :
    c ∈ s ∨ ∃ location ∈ order, c ∈ literal location := by
  induction order generalizing s with
  | nil => exact .inl h
  | cons location order ih =>
    rcases ih h with h | ⟨k, hk, hc⟩
    · rcases mem_substituteAll (quotedSpelling_ne_nil location) h with hc | hc
      · exact .inr ⟨location, by simp, hc⟩
      · exact .inl hc
    · exact .inr ⟨k, by simp [hk], hc⟩

theorem infix_of_infix_substituteAll {location other new s : List Char} (hlit : Literal new)
    (hfree : ¬ new <:+: other)
    (h : quotedSpelling other <:+: substituteAll (quotedSpelling location) new s) :
    quotedSpelling other <:+: s :=
  infix_of_infix_substitute true (quotedSpelling_ne_nil location) hlit.quote
    (head?_quotedSpelling other) (getLast?_quotedSpelling other)
    (fun hin => hfree (infix_of_infix_quotedSpelling hlit.ne_nil hlit.quote hin)) h

theorem commentBody_substituteEach {order : List (List Char)} {s : List Char}
    (hlit : ∀ location ∈ order, Literal (literal location))
    (hfree : order.Pairwise fun location later => ¬ literal location <:+: later)
    (hmark : ∀ location ∈ order, quotedSpelling location <:+: s → Unmarked location)
    (h : commentBody 0 s = some (s, [])) : commentBody 0 (substituteEach literal order s) =
      some (substituteEach literal order s, []) := by
  induction order generalizing s with
  | nil => exact h
  | cons location order ih =>
    obtain ⟨hfirst, hrest⟩ := List.pairwise_cons.mp hfree
    have hl := hlit location (by simp)
    refine ih (fun k hk => hlit k (by simp [hk])) hrest (fun k hk hin => ?_)
      (commentBody_substituteAll hl (hmark location (by simp)) h)
    exact hmark k (by simp [hk]) (infix_of_infix_substituteAll hl (hfirst k hk) hin)

/-- The places where literals may be put for locations so that nothing else changes. -/
structure Replaceable (locations : List (List Char)) (ls : List Lexeme) : Prop where
  whole : ∀ location ∈ locations, Whole location ls
  comment : ∀ location ∈ locations, ∀ s, .layout ('/' :: '*' :: s) ∈ ls →
    quotedSpelling location <:+: s → Unmarked location
  loose : Loose locations ls

theorem Replaceable.subset {some all : List (List Char)} (h : Replaceable all ls)
    (hs : ∀ s ∈ some, s ∈ all) : Replaceable some ls :=
  ⟨fun s hm => h.whole s (hs s hm), fun s hm => h.comment s (hs s hm),
    h.loose.mono hs List.infix_rfl⟩

theorem rewritten_putAll {order : List (List Char)}
    (hlit : ∀ location ∈ order, Literal (literal location))
    (hfree : order.Pairwise fun location later => ¬ literal location <:+: later)
    (hmark : ∀ location ∈ order, ∀ s, .layout ('/' :: '*' :: s) ∈ ls →
      quotedSpelling location <:+: s → Unmarked location)
    (hl : l ∈ ls) (hformed : l.Formed) : Rewritten literal order l (putAll literal order l) := by
  cases l with
  | token kind s =>
    rw [putAll_token]
    split
    · next hs =>
      obtain ⟨rfl, hs⟩ := hs
      exact .literal hs (hlit s hs)
    · exact .same _
  | layout s =>
    rw [putAll_layout]
    generalize hs : Lexeme.layout s = l at hformed
    cases hformed with
    | @blank c hc =>
      cases hs
      have hquote : c ≠ '"' := by rintro rfl; exact absurd hc (by decide)
      rw [substituteEach_cons_of_ne_quote hquote, substituteEach_empty]
      exact .same _
    | @lineComment s hline =>
      cases hs
      rw [substituteEach_cons_of_ne_quote (by decide), substituteEach_cons_of_ne_quote (by decide)]
      refine .lineComment fun c hc => ?_
      rcases mem_substituteEach hc with hc | ⟨location, hlocation, hc⟩
      · exact hline c hc
      · rintro rfl
        exact (hlit location hlocation).line hc
    | @blockComment s hbody =>
      cases hs
      rw [substituteEach_cons_of_ne_quote (by decide), substituteEach_cons_of_ne_quote (by decide)]
      exact .blockComment (commentBody_substituteEach hlit hfree
        (fun location hlocation => hmark location hlocation s hl) hbody)
    | word | number | string | symbol => cases hs

/-- Putting literals for locations in the text of a row gives the text of a row. -/
theorem IsRow.substituteEach {order : List (List Char)} (h : IsRow ls) (hr : Replaceable order ls)
    (hlit : ∀ location ∈ order, Literal (literal location))
    (hfree : order.Pairwise fun location later => ¬ literal location <:+: later) :
    Substitution.substituteEach literal order (text ls) = text (ls.map (putAll literal order)) ∧
      IsRow (ls.map (putAll literal order)) := by
  have hall : List.Forall₂ (Rewritten literal order) ls (ls.map (putAll literal order)) := by
    rw [List.forall₂_map_right_iff, List.forall₂_same]
    exact fun l hl => rewritten_putAll hlit hfree hr.comment hl (h.formed hl)
  exact ⟨text_map_putAll hr.whole hlit hfree, h.rewritten hr.loose hall⟩

end ContractLinker.Lexeme
