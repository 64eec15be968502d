import ContractLinker.Proofs.Import.Run
import ContractLinker.Proofs.Token.Order

/-!
# Spans of imports

`Spells` says which tokens make a declaration. A run keeps the tokens of a declaration that has
begun, `Pending`, and lays those of complete ones apart, `Laid`. So the span of an import covers the
text of its own tokens and nothing else, `parse_spans`, and no two spans overlap.
-/

namespace ContractLinker

/-- From where a span starts to where it finishes stands this piece of the source. -/
def Span.Covers (span : Span) (source piece : List Char) : Prop :=
  ∃ front back, source = front ++ piece ++ back ∧ span.start = .behind front ∧
    span.finish = .behind (front ++ piece)

theorem Span.Covers.unique {span : Span} {source piece piece' : List Char}
    (h : span.Covers source piece) (h' : span.Covers source piece') : piece = piece' := by
  obtain ⟨front, back, he, hstart, hfinish⟩ := h
  obtain ⟨front', back', he', hstart', hfinish'⟩ := h'
  have hfront : front = front' := by
    refine Position.eq_of_prefix (s := source) ⟨piece ++ back, ?_⟩ ⟨piece' ++ back', ?_⟩
      (hstart.symm.trans hstart')
    · rw [he, List.append_assoc]
    · rw [he', List.append_assoc]
  subst hfront
  exact List.append_cancel_left (Position.eq_of_prefix ⟨back, he.symm⟩ ⟨back', he'.symm⟩
    (hfinish.symm.trans hfinish'))

theorem Span.Covers.start_lt_finish {span : Span} {source piece : List Char}
    (h : span.Covers source piece) (hne : piece ≠ []) : span.start < span.finish := by
  obtain ⟨front, back, -, hstart, hfinish⟩ := h
  rw [hstart, hfinish, ← Position.after_behind]
  exact Position.lt_after _ hne

namespace Lexeme

theorem text_of_formed_importKeyword {s : List Char}
    (h : (Lexeme.token .importKeyword s).Formed) : s = "import".toList := by
  generalize hl : Lexeme.token .importKeyword s = l at h
  cases h with
  | blank | lineComment | blockComment | string => cases hl
  | word =>
    unfold wordKind at hl
    split at hl
    · next he => cases hl; exact he
    · cases hl
  | number _ ht =>
    cases hl
    generalize hkind : Token.Kind.importKeyword = kind at ht
    cases ht with
    | whole | fraction => cases hkind
    | radix => split at hkind <;> cases hkind
  | symbol hs =>
    cases hl
    unfold symbol? at hs
    split at hs
    case h_13 => split at hs <;> cases hs
    all_goals cases hs

end Lexeme

theorem Token.spelling_lexeme (t : Token) : t.lexeme.spelling = t.spelling := by
  simp [Token.lexeme, Lexeme.spelling, Token.spelling]

theorem Token.token?_lexeme (t : Token) : t.lexeme.token? t.position = some t := by
  simp [Token.lexeme, Lexeme.token?]

namespace Token.Sequence

open Lexeme

/-- Tokens that follow each other in a source are those of the piece from the first to the last. -/
theorem exists_piece {source : String} {seq : Token.Sequence} {before mid behind : List Token}
    {k t : Token} (hseq : ofSource source = .ok seq)
    (hsplit : seq.tokens = before ++ (k :: mid ++ [t]) ++ behind) :
    ∃ ls, IsRow ls ∧ Span.Covers ⟨k.position, t.finish⟩ source.toList (Lexeme.text ls) ∧
      k.spelling <+: Lexeme.text ls ∧ t.spelling <:+ Lexeme.text ls ∧
      sequence k.position ls = ⟨k :: mid ++ [t], t.finish⟩ := by
  have ht : t.lexeme.Formed := formed_of_mem_tokens hseq (by simp [hsplit])
  obtain ⟨ls, hrow, htext, rfl⟩ := ofSource_eq_ok_iff.mp hseq
  have hk : (sequence .start ls).tokens = before ++ k :: (mid ++ t :: behind) := by simp [hsplit]
  obtain ⟨front, rest, rfl, -, hstart, hrest⟩ := exists_split hk
  obtain ⟨inner, back, rfl, hmid, hlast, -⟩ := exists_split hrest
  have hparts : front ++ k.lexeme :: (inner ++ t.lexeme :: back) =
      front ++ ((k.lexeme :: inner ++ [t.lexeme]) ++ back) := by simp
  rw [hparts, isRow_append_iff, isRow_append_iff] at hrow
  have hbehind : Position.start.after (Lexeme.text front ++ k.spelling) =
      k.position.after k.spelling := by rw [Position.after_append, hstart]
  rw [hbehind] at hmid hlast
  have hfinish : t.finish = k.position.after (Lexeme.text (k.lexeme :: inner ++ [t.lexeme])) := by
    simp [Token.finish_eq ht, hlast, Token.spelling_lexeme, Position.after_append]
  have htokens : (sequence k.position (k.lexeme :: inner ++ [t.lexeme])).tokens =
      k :: mid ++ [t] := by
    simp [tokens_sequence_append, Lexeme.sequence, push, Token.spelling_lexeme,
      Token.token?_lexeme, hmid, ← hlast]
  refine ⟨k.lexeme :: inner ++ [t.lexeme], hrow.2.1.isRow,
    ⟨Lexeme.text front, Lexeme.text back, ?_, ?_, ?_⟩, ?_, ?_, ?_⟩
  · simp [← htext]
  · exact hstart.trans (Position.after_behind [] _)
  · rw [hfinish, hstart, ← Position.after_append]
    exact Position.after_behind [] _
  · exact ⟨Lexeme.text (inner ++ [t.lexeme]), by simp [Token.spelling_lexeme]⟩
  · exact ⟨Lexeme.text (k.lexeme :: inner), by simp [Token.spelling_lexeme]⟩
  · rw [hfinish, ← finish_sequence, ← htokens]

end Token.Sequence

namespace Import

variable {s n : State} {t : Token} {ts us seg pend : List Token} {i : Import}
  {is js imports : List Import} {d : Option Import}

-- ---------------------------------------------------------------------------
-- Declarations
-- ---------------------------------------------------------------------------

/-- The tokens of a declaration, and what they declare. -/
inductive Spells : List Token → Import → Prop
  | location {k t : Token} {l : Location} : k.kind = .importKeyword → locationOf? t = some l →
      Spells [k, t] (declare k t [] l)
  | name {k t : Token} : k.kind = .importKeyword → t.kind = .identifier →
      Spells [k, t] (declareName k t)
  | names {k f t : Token} {us : List Token} {names : List String} {l : Location} :
      k.kind = .importKeyword → Names (us.map Token.content) names → f.isFrom = true →
      locationOf? t = some l → Spells (k :: us ++ [f, t]) (declare k t names l)

theorem spelled_of_locationOf? {l : Location} (h : locationOf? t = some l) :
    Spelled l t.content := by
  unfold locationOf? at h
  split at h
  · next hk => cases h; rw [content_of_kind hk]; exact .quoted _
  · next hk =>
    obtain ⟨a, ha, rfl⟩ := Option.map_eq_some_iff.mp h
    rw [content_of_kind hk]
    exact .address ha
  · cases h

/-- A declaration reaches from its keyword to the token of its location, or of its bare name. -/
theorem Spells.ends (h : Spells seg i) : ∃ k mid t, seg = k :: mid ++ [t] ∧
    k.kind = .importKeyword ∧ i.span = ⟨k.position, t.finish⟩ ∧ Spelled i.location t.content := by
  cases h with
  | @location k t l hk hl => exact ⟨k, [], t, rfl, hk, rfl, spelled_of_locationOf? hl⟩
  | @name k t hk ht =>
    refine ⟨k, [], t, rfl, hk, rfl, ?_⟩
    rw [content_of_kind ht]
    exact .name t.text
  | @names k f t us names l hk _ _ hl =>
    exact ⟨k, us ++ [f], t, by simp, hk, rfl, spelled_of_locationOf? hl⟩

/-- What a span covers begins with the keyword, ends with the location and has no other tokens. -/
theorem Spells.exists_piece {source : String} {seq : Token.Sequence} {before behind : List Token}
    (h : Spells seg i) (hseq : Token.Sequence.ofSource source = .ok seq)
    (hsplit : seq.tokens = before ++ seg ++ behind) :
    ∃ ls, Lexeme.IsRow ls ∧ i.span.Covers source.toList (Lexeme.text ls) ∧
      "import".toList <+: Lexeme.text ls ∧
      (∃ last ∈ seg.getLast?, Spelled i.location last.content ∧
        last.spelling <:+ Lexeme.text ls) ∧
      Lexeme.sequence i.span.start ls = ⟨seg, i.span.finish⟩ := by
  obtain ⟨k, mid, t, rfl, hk, hspan, hloc⟩ := h.ends
  obtain ⟨ls, hrow, hcovers, hkeyword, hlast, hsequence⟩ :=
    Token.Sequence.exists_piece hseq hsplit
  have hformed : k.lexeme.Formed := Token.Sequence.formed_of_mem_tokens hseq (by simp [hsplit])
  have himport : k.spelling = "import".toList := by
    rw [Token.lexeme, hk] at hformed
    simp [Token.spelling, hk, Token.Kind.spell, Lexeme.text_of_formed_importKeyword hformed]
  rw [← hspan] at hcovers
  rw [himport] at hkeyword
  refine ⟨ls, hrow, hcovers, hkeyword, ⟨t, List.getLast?_concat, hloc, hlast⟩, ?_⟩
  rw [hspan, hsequence]

/-- Imports with their tokens one behind the other, among others. -/
inductive Laid : List Token → List Import → Prop
  | nil {ts : List Token} : Laid ts []
  | cons {before seg behind : List Token} {i : Import} {is : List Import} : Spells seg i →
      Laid behind is → Laid (before ++ seg ++ behind) (i :: is)

theorem Laid.prepend (h : Laid us is) (ts : List Token) : Laid (ts ++ us) is := by
  cases h with
  | nil => exact .nil
  | cons hseg hbehind =>
    rw [← List.append_assoc, ← List.append_assoc]
    exact .cons hseg hbehind

theorem Laid.append (h : Laid ts is) (h' : Laid us js) : Laid (ts ++ us) (is ++ js) := by
  induction h with
  | nil => exact h'.prepend _
  | cons hseg _ ih =>
    rw [List.append_assoc]
    exact .cons hseg ih

theorem Laid.singleton (h : Spells seg i) (behind : List Token) : Laid (seg ++ behind) [i] :=
  @Laid.cons [] seg behind i [] h .nil

theorem Laid.exists_spells (h : Laid ts is) (hi : i ∈ is) :
    ∃ before seg behind, ts = before ++ seg ++ behind ∧ Spells seg i := by
  induction h with
  | nil => cases hi
  | @cons before seg behind _ is hseg _ ih =>
    rcases List.mem_cons.mp hi with rfl | hi
    · exact ⟨before, seg, behind, rfl, hseg⟩
    · obtain ⟨before', seg', behind', rfl, hseg'⟩ := ih hi
      exact ⟨before ++ seg ++ before', seg', behind', by simp, hseg'⟩

/-- Imports follow each other as their tokens do. -/
theorem Laid.pairwise (h : Laid ts is) (hts : ts.Pairwise fun t u => t.finish ≤ u.position) :
    is.Pairwise fun i j => i.span.finish ≤ j.span.start := by
  induction h with
  | nil => exact .nil
  | @cons before seg behind i is hseg hbehind ih =>
    obtain ⟨-, hpairs, hacross⟩ := List.pairwise_append.mp hts
    refine .cons (fun j hj => ?_) (ih hpairs)
    obtain ⟨k, mid, t, rfl, -, hspan, -⟩ := hseg.ends
    obtain ⟨before', seg', behind', rfl, hseg'⟩ := hbehind.exists_spells hj
    obtain ⟨k', mid', t', rfl, -, hspan', -⟩ := hseg'.ends
    rw [hspan, hspan']
    exact hacross t (by simp) k' (by simp)

-- ---------------------------------------------------------------------------
-- Declarations that have begun
-- ---------------------------------------------------------------------------

theorem Names.concat {ws : List Word} {names : List String} (h : Names ws names)
    (c n : String) : Names (ws ++ [(.comma, c), (.identifier, n)]) (names ++ [n]) := by
  induction h with
  | one m => exact .more m c (.one n)
  | more m s _ ih => exact .more m s ih

/-- The tokens that a state has read of a declaration. -/
inductive Pending : State → List Token → Prop
  | between {brackets : List Token} : Pending (.between brackets) []
  | keyword {k : Token} : k.kind = .importKeyword → Pending (.keyword k) [k]
  | name {k t : Token} : k.kind = .importKeyword → t.kind = .identifier →
      Pending (.name k t) [k, t]
  | names {k : Token} {us : List Token} {names : List String} : k.kind = .importKeyword →
      Names (us.map Token.content) names → Pending (.names k names) (k :: us)
  | comma {k c : Token} {us : List Token} {names : List String} : k.kind = .importKeyword →
      Names (us.map Token.content) names → c.kind = .comma →
      Pending (.comma k names) (k :: us ++ [c])
  | source {k f : Token} {us : List Token} {names : List String} : k.kind = .importKeyword →
      Names (us.map Token.content) names → f.isFrom = true →
      Pending (.source k names) (k :: us ++ [f])

theorem names_singleton (h : t.kind = .identifier) :
    Names ([t].map Token.content) [t.text] := by
  rw [List.map_singleton, content_of_kind h]
  exact .one t.text

/-- Between declarations a token is passed over, or it begins one. -/
theorem pending_of_stepBetween {brackets : List Token} (h : stepBetween brackets t = .ok n) :
    ∃ done pend, [t] = done ++ pend ∧ Pending n pend := by
  rcases stepBetween_eq_ok_iff.mp h with ⟨hk, -, rfl⟩ | ⟨b, -, rfl⟩ |
    ⟨b, opener, outer, -, -, -, rfl⟩ | ⟨-, -, rfl⟩
  · exact ⟨[], [t], rfl, .keyword hk⟩
  all_goals exact ⟨[t], [], rfl, .between⟩

/-- A token goes on with the declaration that has begun, or completes one. -/
theorem Pending.step (h : Pending s pend) (hstep : Step s t n d) :
    ∃ done rest, pend ++ [t] = done ++ rest ∧ Pending n rest ∧ Laid done d.toList := by
  cases hstep with
  | between hn =>
    cases h
    obtain ⟨done, rest, he, hrest⟩ := pending_of_stepBetween hn
    exact ⟨done, rest, he, hrest, .nil⟩
  | @first k t ht =>
    cases h with
    | keyword hk => exact ⟨[], [k, t], rfl, .name hk ht, .nil⟩
  | @location k t l hl =>
    cases h with
    | keyword hk => exact ⟨[k, t] ++ [], [], by simp, .between, .singleton (.location hk hl) []⟩
  | @firstComma k f t ht =>
    cases h with
    | name hk hf => exact ⟨[], k :: [f] ++ [t], rfl, .comma hk (names_singleton hf) ht, .nil⟩
  | @firstFrom k f t ht =>
    cases h with
    | name hk hf => exact ⟨[], k :: [f] ++ [t], rfl, .source hk (names_singleton hf) ht, .nil⟩
  | @bare k f t n _ hn =>
    cases h with
    | name hk hf =>
      obtain ⟨done, rest, he, hrest⟩ := pending_of_stepBetween hn
      exact ⟨[k, f] ++ done, rest, by simp [he], hrest, .singleton (.name hk hf) done⟩
  | @name k t names ht =>
    cases h with
    | @comma _ c us _ hk hus hc =>
      refine ⟨[], k :: (us ++ [c, t]), by simp, .names hk ?_, .nil⟩
      simpa [content_of_kind hc, content_of_kind ht] using hus.concat c.text t.text
  | @comma k t names ht =>
    cases h with
    | @names _ us _ hk hus => exact ⟨[], k :: us ++ [t], rfl, .comma hk hus ht, .nil⟩
  | @fromWord k t names ht =>
    cases h with
    | @names _ us _ hk hus => exact ⟨[], k :: us ++ [t], rfl, .source hk hus ht, .nil⟩
  | @source k t names l hl =>
    cases h with
    | @source _ f us _ hk hus hf =>
      exact ⟨k :: us ++ [f, t] ++ [], [], by simp, .between, .singleton (.names hk hus hf hl) []⟩

/-- A run lays apart the declarations that it completes, in front of the one that has begun. -/
theorem Steps.laid (h : Steps (.between []) ts n is) :
    ∃ done pend, ts = done ++ pend ∧ Pending n pend ∧ Laid done is := by
  induction h with
  | refl => exact ⟨[], [], rfl, .between, .nil⟩
  | @tail ts n m is t d _ hstep ih =>
    obtain ⟨done, pend, rfl, hpend, hlaid⟩ := ih
    obtain ⟨done', rest, he, hrest, hlaid'⟩ := hpend.step hstep
    exact ⟨done ++ done', rest, by simp [he], hrest, hlaid.append hlaid'⟩

/-- The imports that are read are laid out among the tokens. -/
theorem laid_of_read {ending : Token} (h : read ending (.between []) ts = .ok imports) :
    Laid ts imports := by
  obtain ⟨n, is, d, hsteps, hclose, rfl⟩ := read_eq_ok_iff.mp h
  obtain ⟨done, pend, rfl, hpend, hlaid⟩ := hsteps.laid
  refine hlaid.append ?_
  rcases close_eq_ok_iff.mp hclose with ⟨rfl, rfl⟩ | ⟨start, first, rfl, rfl⟩
  · exact .nil
  · cases hpend with
    | name hk ht => exact .singleton (.name hk ht) []

end Import

-- ---------------------------------------------------------------------------
-- Programs
-- ---------------------------------------------------------------------------

namespace Program

open Import
open Token.Sequence (ofSource)

variable {filename source : String} {p : Program} {seq : Token.Sequence}

/-- The span of an import covers a piece of the source that begins with the keyword, ends with the
location and has the tokens of the declaration alone. The spans follow each other. -/
theorem parse_spans (hp : parse filename source = .ok p) (hseq : ofSource source = .ok seq) :
    (∀ i ∈ p.imports, (∃ piece, i.span.Covers source.toList piece) ∧
      ∀ piece, i.span.Covers source.toList piece → ∃ ts, ts <:+: seq.tokens ∧ Spells ts i ∧
        "import".toList <+: piece ∧
        (∃ last ∈ ts.getLast?, Spelled i.location last.content ∧ last.spelling <:+ piece) ∧
        Token.Sequence.read i.span.start piece = .ok ⟨ts, i.span.finish⟩ ∧
        ∃ own, ofSource (.ofList piece) = .ok own ∧
          own.tokens.map Token.content = ts.map Token.content) ∧
    (∀ i ∈ p.imports, i.span.start < i.span.finish) ∧
    p.imports.Pairwise fun i j => i.span.finish ≤ j.span.start := by
  have hlaid : Laid seq.tokens p.imports := laid_of_read (read_of_parse hp hseq)
  refine ⟨fun i hi => ?_, fun i hi => ?_, hlaid.pairwise (Token.Sequence.pairwise_tokens hseq)⟩
  · obtain ⟨before, ts, behind, he, hts⟩ := hlaid.exists_spells hi
    obtain ⟨ls, hrow, hcovers, hkeyword, hlast, hsequence⟩ := hts.exists_piece hseq he
    refine ⟨⟨_, hcovers⟩, fun piece hpiece => ?_⟩
    obtain rfl := hpiece.unique hcovers
    have hown : ofSource (.ofList (Lexeme.text ls)) = .ok (Lexeme.sequence .start ls) :=
      Token.Sequence.ofSource_eq_ok_iff.mpr ⟨ls, hrow, by simp, rfl⟩
    refine ⟨ts, ⟨before, behind, he.symm⟩, hts, hkeyword, hlast,
      Token.Sequence.read_eq_ok_iff.mpr ⟨ls, hrow, rfl, hsequence⟩, _, hown, ?_⟩
    rw [Lexeme.content_sequence, ← Lexeme.content_sequence i.span.start, hsequence]
  · obtain ⟨before, ts, behind, he, hts⟩ := hlaid.exists_spells hi
    obtain ⟨ls, -, hcovers, hkeyword, -⟩ := hts.exists_piece hseq he
    refine hcovers.start_lt_finish fun hnil => ?_
    rw [hnil] at hkeyword
    exact absurd (List.prefix_nil.mp hkeyword) (by decide)

/-- A declaration over two lines with a comment in it, and one of a bare name. -/
theorem parse_spans_lines : ∃ seq p i j,
    ofSource "(import)import A,/*\"*/B\nfrom\"c\";import D" = .ok seq ∧
    parse "" "(import)import A,/*\"*/B\nfrom\"c\";import D" = .ok p ∧ p.imports = [i, j] ∧
    i.span.Covers "(import)import A,/*\"*/B\nfrom\"c\";import D".toList
      "import A,/*\"*/B\nfrom\"c\"".toList ∧
    (∃ ts, Spells ts i ∧ Token.Sequence.read i.span.start
      "import A,/*\"*/B\nfrom\"c\"".toList = .ok ⟨ts, i.span.finish⟩) ∧
    i.span.finish ≤ j.span.start := by
  obtain ⟨seq, hseq, -⟩ : ∃ seq,
      ofSource "(import)import A,/*\"*/B\nfrom\"c\";import D" = .ok seq ∧ seq.finish = ⟨2, 17⟩ :=
    map_eq_ok.mp (by decide +kernel)
  obtain ⟨p, hp, himports⟩ : ∃ p,
      parse "" "(import)import A,/*\"*/B\nfrom\"c\";import D" = .ok p ∧
      p.imports = [⟨["A", "B"], .quoted "c", ⟨⟨1, 9⟩, ⟨2, 8⟩⟩⟩,
        ⟨[], .name "D", ⟨⟨2, 9⟩, ⟨2, 17⟩⟩⟩] := map_eq_ok.mp (by decide +kernel)
  obtain ⟨hspans, -, hpairs⟩ := parse_spans hp hseq
  rw [himports] at hspans hpairs
  have hcovers : (⟨⟨1, 9⟩, ⟨2, 8⟩⟩ : Span).Covers
      "(import)import A,/*\"*/B\nfrom\"c\";import D".toList
      "import A,/*\"*/B\nfrom\"c\"".toList :=
    ⟨"(import)".toList, ";import D".toList, by decide, by decide, by decide⟩
  obtain ⟨ts, -, hts, -, -, hread, -⟩ := (hspans _ List.mem_cons_self).2 _ hcovers
  exact ⟨seq, p, _, _, hseq, hp, himports, hcovers, ⟨ts, hts, hread⟩,
    List.rel_of_pairwise_cons hpairs (List.mem_singleton_self _)⟩

end Program

end ContractLinker
