import ContractLinker.Proofs.Import.Run
import ContractLinker.Proofs.Registration
import ContractLinker.Proofs.Token.Order

/-!
# Where reading stops

What a run has read can always be continued to a program, `exists_completion`: open brackets are
closed, and a declaration that has begun gets what it lacks. So a fault names the first token that
no program goes on with, `parse_refuses_first`, or else the innermost bracket that is open at the
end, which `Opened` keeps apart from those that are closed.
-/

namespace ContractLinker.Import

variable {s n : State} {t opener ending : Token} {ts us brackets : List Token} {is : List Import}
  {fault : Fault}

-- ---------------------------------------------------------------------------
-- Open brackets
-- ---------------------------------------------------------------------------

theorem Nested.append {ws vs : List Word} (h : Nested ws) (h' : Nested vs) : Nested (ws ++ vs) := by
  induction h with
  | nil => exact h'
  | word hplain _ ih => exact .word hplain ih
  | group b s t hinner _ _ ih =>
    rw [List.append_assoc, List.cons_append]
    exact .group b s t hinner ih

/-- Brackets that are open behind tokens, innermost first. Behind each, all brackets but the inner
open ones are closed. -/
inductive Opened : List Token → List Token → Prop
  | none {ts : List Token} : Opened [] ts
  | inside {outer before inner : List Token} {opener : Token} {b : Bracket} :
      Opened outer before → opener.kind = .opening b → Nested (inner.map Token.content) →
      Opened (opener :: outer) (before ++ opener :: inner)

theorem Opened.append (h : Opened brackets ts) (hnested : Nested (us.map Token.content)) :
    Opened brackets (ts ++ us) := by
  cases h with
  | none => exact .none
  | inside houter hk hinner =>
    rw [List.append_assoc, List.cons_append]
    exact .inside houter hk (by simpa using hinner.append hnested)

theorem Opened.step {behind : List Token} (h : Opened brackets ts)
    (hstep : stepBetween brackets t = .ok (.between behind)) : Opened behind (ts ++ [t]) := by
  rcases stepBetween_eq_ok_iff.mp hstep with ⟨-, -, he⟩ | ⟨b, hk, he⟩ |
    ⟨b, opener, outer, hk, rfl, ho, he⟩ | ⟨hplain, -, he⟩
  · cases he
  · cases he
    exact .inside h hk .nil
  · cases he
    cases h with
    | @inside _ before inner _ _ houter _ hinner =>
      -- What stands between the two brackets and they themselves are a group.
      have hgroup : Nested ((opener :: inner ++ [t]).map Token.content) := by
        have hg := Nested.group b opener.text t.text hinner .nil
        simpa [Token.content, ho, hk] using hg
      simpa using houter.append hgroup
  · cases he
    exact h.append (.word hplain .nil)

theorem Steps.opened (h : Steps (.between []) ts (.between brackets) is) : Opened brackets ts := by
  generalize hs : State.between brackets = s at h
  induction h generalizing brackets with
  | refl =>
    cases hs
    exact .none
  | tail hsteps hstep ih =>
    subst hs
    cases hstep with
    | between h => exact (ih rfl).step h
    | bare _ h => exact Opened.none.step h
    | location | source => exact .none

-- ---------------------------------------------------------------------------
-- Completions
-- ---------------------------------------------------------------------------

/-- Tokens that are those of a program. -/
def Accepted (ts : List Token) : Prop :=
  ∃ filename finish p, Program.ofTokens filename ⟨ts, finish⟩ = .ok p

/-- Tokens that become those of a program with others behind them, which can be read. -/
def Continuable (ts : List Token) : Prop :=
  ∃ more : List Token, (∀ t ∈ more, t.lexeme.Formed) ∧ Accepted (ts ++ more)

/-- A bracket that stays open, behind which all others are closed. -/
def InnermostOpen (opener : Token) (ts : List Token) : Prop :=
  ∃ before inner b, ts = before ++ opener :: inner ∧ opener.kind = .opening b ∧
    Nested (inner.map Token.content)

/-- The end of the tokens does not matter to what is accepted. -/
theorem accepted_iff (ending : Token) :
    Accepted ts ↔ ∃ imports, read ending (.between []) ts = .ok imports := by
  have hany : ∀ {ending' : Token} {imports}, read ending (.between []) ts = .ok imports ↔
      read ending' (.between []) ts = .ok imports := by
    simp [read_eq_ok_iff, close_eq_ok_iff]
  constructor
  · rintro ⟨filename, finish, p, hp⟩
    obtain ⟨imports, hread, -⟩ := map_eq_ok.mp hp
    exact ⟨imports, hany.mpr hread⟩
  · rintro ⟨imports, hread⟩
    refine ⟨"", .start, _, map_eq_ok.mpr ⟨imports, hany.mp hread, rfl⟩⟩

def closer : Bracket → Token
  | .brace => ⟨.closing .brace, "\x7d", .start⟩
  | .paren => ⟨.closing .paren, ")", .start⟩
  | .square => ⟨.closing .square, "]", .start⟩

theorem kind_closer (b : Bracket) : (closer b).kind = .closing b := by
  cases b <;> rfl

theorem formed_closer (b : Bracket) : (closer b).lexeme.Formed := by
  cases b <;> exact .symbol rfl

/-- Open brackets are closed by their closing brackets. -/
theorem exists_closers (ending : Token) (h : Opened brackets ts) :
    ∃ more : List Token, (∀ t ∈ more, t.lexeme.Formed) ∧
      read ending (.between brackets) more = .ok [] := by
  induction h with
  | none => exact ⟨[], by simp, rfl⟩
  | @inside outer before inner opener b _ hk _ ih =>
    obtain ⟨more, hformed, hread⟩ := ih
    refine ⟨closer b :: more, List.forall_mem_cons.mpr ⟨formed_closer b, hformed⟩, ?_⟩
    simp [read, step, stepBetween, kind_closer, hk, hread, Except.map]

/-- From each state of a run there is a way to the end of a program. -/
theorem exists_completion (ending : Token) (h : Steps (.between []) ts s is) :
    ∃ more : List Token, (∀ t ∈ more, t.lexeme.Formed) ∧
      ∃ imports, read ending s more = .ok imports := by
  let quoted : Token := ⟨.string, "", .start⟩
  let fromWord : Token := ⟨.identifier, "from", .start⟩
  have hrow : Lexeme.IsRow [fromWord.lexeme, quoted.lexeme] := by decide +kernel
  have hfrom : fromWord.lexeme.Formed := hrow.formed (by simp)
  have hquoted : quoted.lexeme.Formed := hrow.formed (by simp)
  cases s with
  | between brackets =>
    obtain ⟨more, hformed, hread⟩ := exists_closers ending h.opened
    exact ⟨more, hformed, _, hread⟩
  | keyword start => exact ⟨[quoted], by simpa using hquoted, _, rfl⟩
  | name start first => exact ⟨[], by simp, _, rfl⟩
  -- Any identifier would do for the name that follows the comma.
  | comma start names =>
    exact ⟨[fromWord, fromWord, quoted], by simpa using ⟨hfrom, hquoted⟩, _, rfl⟩
  | names start names => exact ⟨[fromWord, quoted], by simpa using ⟨hfrom, hquoted⟩, _, rfl⟩
  | source start names => exact ⟨[quoted], by simpa using hquoted, _, rfl⟩

theorem Steps.continuable (h : Steps (.between []) ts s is) : Continuable ts := by
  obtain ⟨more, hformed, imports, hread⟩ := exists_completion (.endOfFile .start) h
  refine ⟨more, hformed, (accepted_iff (.endOfFile .start)).mpr ⟨is ++ imports, ?_⟩⟩
  rw [read_of_steps h, hread]
  rfl

theorem Steps.not_accepted (h : Steps (.between []) ts s is) (hfault : step s t = .error fault)
    (more : List Token) : ¬ Accepted (ts ++ t :: more) := by
  rintro haccepted
  obtain ⟨imports, hread⟩ := (accepted_iff (.endOfFile .start)).mp haccepted
  rw [read_of_refused h hfault] at hread
  cases hread

/-- How reading stops: at a token, at the end, or with a bracket left open. -/
theorem read_eq_error (h : read ending (.between []) ts = .error fault) :
    (∃ before behind, ts = before ++ fault.token :: behind ∧ fault.cause ≠ .unclosed ∧
      Continuable before ∧ ∀ more, ¬ Accepted (before ++ fault.token :: more)) ∨
    (fault.Refuses ending ∧ Continuable ts ∧ ¬ Accepted ts) ∨
    fault.cause = .unclosed ∧ Continuable ts ∧ InnermostOpen fault.token ts := by
  rcases steps_or_refused (.between []) ts with ⟨n, is, hsteps⟩ | ⟨before, t, behind, n, is,
    fault', rfl, hsteps, hfault⟩
  · have hread := read_of_steps hsteps ending []
    rw [List.append_nil, h] at hread
    have hclose : close ending n = .error fault := map_eq_error.mp (map_eq_error.mp hread.symm)
    rcases close_eq_error hclose with ⟨opener, outer, rfl, rfl⟩ | hrefuses
    · cases hsteps.opened with
      | inside _ hk hinner =>
        exact .inr (.inr ⟨rfl, hsteps.continuable, _, _, _, rfl, hk, hinner⟩)
    · refine .inr (.inl ⟨hrefuses, hsteps.continuable, fun haccepted => ?_⟩)
      obtain ⟨imports, hok⟩ := (accepted_iff ending).mp haccepted
      cases h.symm.trans hok
  · rw [read_of_refused hsteps hfault] at h
    cases h
    obtain ⟨rfl, hcause⟩ := refuses_of_step hfault
    exact .inl ⟨before, behind, rfl, hcause, hsteps.continuable, hsteps.not_accepted hfault⟩

end ContractLinker.Import

namespace ContractLinker.Program

open Import Token.Sequence

theorem code_eq_iff {cause : Import.Cause} : cause.code = ⟨.grammar, 22⟩ ↔ cause = .unclosed := by
  cases cause <;> simp [Import.Cause.code]

/-- A source that has tokens and is no program is refused at the first token that no program goes on
with, which may be the end; or else for its innermost open bracket. -/
theorem parse_refuses_first {filename source : String} {seq : Token.Sequence}
    (hseq : ofSource source = .ok seq) (h : ∀ p, parse filename source ≠ .ok p) :
    ∃ fault, parse filename source = .error (.grammar filename fault) ∧
      (fault.cause.code ≠ ⟨.grammar, 22⟩ → fault.token ∈ seq.toList ∧
        ∀ before behind, seq.toList = before ++ fault.token :: behind → Continuable before ∧
          (fault.token.kind = .endOfFile → ¬ Accepted before) ∧
          (fault.token.kind ≠ .endOfFile → ∀ more, ¬ Accepted (before ++ fault.token :: more))) ∧
      (fault.cause.code = ⟨.grammar, 22⟩ →
        Continuable seq.tokens ∧ InnermostOpen fault.token seq.tokens) := by
  cases hparse : parse filename source with
  | ok p => exact absurd hparse (h p)
  | error f =>
    rcases parse_eq_error_iff.mp hparse with ⟨fault, hfault, -⟩ | ⟨seq', fault, hseq', hfault, rfl⟩
    · cases hseq.symm.trans hfault
    obtain rfl : seq = seq' := Except.ok.inj (hseq.symm.trans hseq')
    refine ⟨fault, rfl, ?_⟩
    rcases read_eq_error (map_eq_error.mp hfault) with ⟨before, behind, he, hcause, hgood, hbad⟩ |
      ⟨⟨htoken, hcause⟩, hgood, hbad⟩ | ⟨hcause, hgood, hopen⟩
    · have hmem : fault.token ∈ seq.tokens := by simp [he]
      have hall : seq.toList = before ++ fault.token :: (behind ++ [seq.ending]) := by
        simp [toList, he]
      refine ⟨fun _ => ⟨by simp [hall], fun before' behind' he' => ?_⟩,
        fun hcode => absurd (code_eq_iff.mp hcode) hcause⟩
      obtain ⟨rfl, -⟩ := eq_of_toList_eq hseq hall he'
      exact ⟨hgood, fun hk => absurd hk (formed_of_mem_tokens hseq hmem).ne_endOfFile,
        fun _ => hbad⟩
    · have hall : seq.toList = seq.tokens ++ fault.token :: [] := by simp [toList, htoken]
      refine ⟨fun _ => ⟨by simp [hall], fun before' behind' he' => ?_⟩,
        fun hcode => absurd (code_eq_iff.mp hcode) hcause⟩
      obtain ⟨rfl, -⟩ := eq_of_toList_eq hseq hall he'
      exact ⟨hgood, fun _ => hbad, fun hk => absurd (by rw [htoken]; rfl) hk⟩
    · exact ⟨fun hcode => absurd (code_eq_iff.mpr hcause) hcode, fun _ => ⟨hgood, hopen⟩⟩

/-- A bracket where `from` has to stand, and one of two that nothing closes. -/
theorem parse_refuses_first_bracket :
    (∃ seq fault before behind, ofSource "import A, B (" = .ok seq ∧
      parse "" "import A, B (" = .error (.grammar "" fault) ∧
      seq.toList = before ++ fault.token :: behind ∧
      before.map Token.text = ["import", "A", ",", "B"] ∧ Continuable before ∧
      ∀ more, ¬ Accepted (before ++ fault.token :: more)) ∧
    ∃ seq fault, ofSource "(()[()" = .ok seq ∧
      parse "" "(()[()" = .error (.grammar "" fault) ∧ fault.token.position = ⟨1, 4⟩ ∧
      Continuable seq.tokens ∧ InnermostOpen fault.token seq.tokens := by
  obtain ⟨seq, hseq, htokens⟩ : ∃ seq, ofSource "import A, B (" = .ok seq ∧ seq.toList =
      [⟨.importKeyword, "import", ⟨1, 1⟩⟩, ⟨.identifier, "A", ⟨1, 8⟩⟩, ⟨.comma, ",", ⟨1, 9⟩⟩,
        ⟨.identifier, "B", ⟨1, 11⟩⟩] ++ ⟨.opening .paren, "(", ⟨1, 13⟩⟩ :: [.endOfFile ⟨1, 14⟩] :=
    map_eq_ok.mp (by decide +kernel)
  have hnames : parse "" "import A, B (" =
      .error (.grammar "" ⟨.fromExpected, ⟨.opening .paren, "(", ⟨1, 13⟩⟩⟩) := by decide +kernel
  obtain ⟨seq', hseq', -⟩ : ∃ seq, ofSource "(()[()" = .ok seq ∧ seq.finish = ⟨1, 7⟩ :=
    map_eq_ok.mp (by decide +kernel)
  have hbrackets : parse "" "(()[()" =
      .error (.grammar "" ⟨.unclosed, ⟨.opening .square, "[", ⟨1, 4⟩⟩⟩) := by decide +kernel
  have hrefused : ∀ p, parse "" "import A, B (" ≠ .ok p := by simp [hnames]
  have hrefused' : ∀ p, parse "" "(()[()" ≠ .ok p := by simp [hbrackets]
  obtain ⟨fault, hfault, hfirst, -⟩ := parse_refuses_first hseq hrefused
  obtain ⟨fault', hfault', -, hopen⟩ := parse_refuses_first hseq' hrefused'
  cases hnames.symm.trans hfault
  cases hbrackets.symm.trans hfault'
  obtain ⟨hgood, -, hbad⟩ := (hfirst (by decide)).2 _ _ htokens
  obtain ⟨hgood', hinner⟩ := hopen rfl
  exact ⟨⟨seq, _, _, _, hseq, hnames, htokens, rfl, hgood, hbad (by simp)⟩,
    seq', _, hseq', hbrackets, rfl, hgood', hinner⟩

end ContractLinker.Program
