import ContractLinker.Proofs.Import.Cursor
import ContractLinker.Proofs.Import.Span
import ContractLinker.Proofs.Token.Composition

/-!
# Programs that follow each other

A program leaves no bracket open and no declaration half read, so behind it and a newline another
one is read as it is on its own, further down. Only a bare name that the first one ends in depends
on what follows: `parse_append_newline` says that the imports are those of both programs unless the
second begins with a token that goes on with the name, or with a location that lacks its `from`.
-/

namespace ContractLinker

def Import.down (lines : Nat) (i : Import) : Import :=
  { i with span := ⟨i.span.start.down lines, i.span.finish.down lines⟩ }

/-- Behind an imported name, a token that belongs to its declaration or is refused. -/
def Token.FollowsName (t : Token) : Prop :=
  t.kind = .comma ∨ t.kind = .string ∨ t.kind = .hexadecimal ∨ t.isFrom = true

@[simp] theorem Token.kind_down (lines : Nat) (t : Token) : (t.down lines).kind = t.kind := rfl

@[simp] theorem Token.followsName_down {lines : Nat} {t : Token} :
    (t.down lines).FollowsName ↔ t.FollowsName := Iff.rfl

namespace Import

variable {s n : State} {t ending : Token} {ts : List Token} {i : Import} {d : Option Import}
  {is js imports : List Import}

-- ---------------------------------------------------------------------------
-- Further down
-- ---------------------------------------------------------------------------

def State.down (lines : Nat) : State → State
  | .between brackets => .between (brackets.map (Token.down lines))
  | .keyword start => .keyword (start.down lines)
  | .name start first => .name (start.down lines) (first.down lines)
  | .comma start ns => .comma (start.down lines) ns
  | .names start ns => .names (start.down lines) ns
  | .source start ns => .source (start.down lines) ns

theorem stepBetween_down (lines : Nat) {brackets : List Token}
    (h : stepBetween brackets t = .ok n) :
    stepBetween (brackets.map (Token.down lines)) (t.down lines) = .ok (n.down lines) := by
  rcases stepBetween_eq_ok_iff.mp h with ⟨hk, rfl, rfl⟩ | ⟨b, hk, rfl⟩ |
    ⟨b, opener, outer, hk, rfl, ho, rfl⟩ | ⟨hplain, himport, rfl⟩
  · exact stepBetween_eq_ok_iff.mpr (.inl ⟨hk, rfl, rfl⟩)
  · exact stepBetween_eq_ok_iff.mpr (.inr (.inl ⟨b, hk, rfl⟩))
  · exact stepBetween_eq_ok_iff.mpr (.inr (.inr (.inl ⟨b, opener.down lines, _, hk, rfl, ho, rfl⟩)))
  · have hbrackets : (t.down lines).kind = .importKeyword →
        brackets.map (Token.down lines) ≠ [] := by simpa using himport
    exact stepBetween_eq_ok_iff.mpr (.inr (.inr (.inr ⟨hplain, hbrackets, rfl⟩)))

/-- A step looks at no position. -/
theorem Step.down (lines : Nat) (h : Step s t n d) :
    Step (s.down lines) (t.down lines) (n.down lines) (d.map (Import.down lines)) := by
  cases h with
  | between h => exact .between (stepBetween_down lines h)
  | first hk => exact .first hk
  | location hl => exact .location hl
  | firstComma hk => exact .firstComma hk
  | firstFrom hfrom => exact .firstFrom hfrom
  | bare hends h => exact .bare hends (stepBetween_down lines h)
  | name hk => exact .name hk
  | comma hk => exact .comma hk
  | fromWord hfrom => exact .fromWord hfrom
  | source hl => exact .source hl

theorem Steps.down (lines : Nat) (h : Steps s ts n is) : Steps (s.down lines)
    (ts.map (Token.down lines)) (n.down lines) (is.map (Import.down lines)) := by
  induction h with
  | refl => exact .refl
  | tail _ hstep ih => simpa [Option.toList_map] using ih.tail (hstep.down lines)

theorem close_down (lines : Nat) (ending' : Token) (h : close ending s = .ok d) :
    close ending' (s.down lines) = .ok (d.map (Import.down lines)) := by
  rcases close_eq_ok_iff.mp h with ⟨rfl, rfl⟩ | ⟨start, first, rfl, rfl⟩
  · rfl
  · rfl

theorem read_down (lines : Nat) (ending' : Token) (h : read ending s ts = .ok imports) :
    read ending' (s.down lines) (ts.map (Token.down lines)) =
      .ok (imports.map (Import.down lines)) := by
  obtain ⟨n, is, d, hsteps, hclose, rfl⟩ := read_eq_ok_iff.mp h
  refine read_eq_ok_iff.mpr ⟨_, _, _, hsteps.down lines, close_down lines ending' hclose, ?_⟩
  simp [Option.toList_map]

-- ---------------------------------------------------------------------------
-- Bare names
-- ---------------------------------------------------------------------------

/-- A location is no bare name. -/
theorem locationOf?_ne_name {name : String} : locationOf? t ≠ some (.name name) := by
  intro h
  unfold locationOf? at h
  split at h
  · cases h
  · simp at h
  · cases h

/-- A bare name that is read is not the last token. -/
theorem Steps.exists_mem_dropLast (h : Steps (.between []) ts n is) (hi : i ∈ is) {name : String}
    (hname : i.location = .name name) : ∃ first ∈ ts.dropLast, i.span.finish = first.finish := by
  induction h with
  | refl => cases hi
  | @tail ts n m is t d hsteps hstep ih =>
    rw [List.dropLast_concat]
    rcases List.mem_append.mp hi with hi | hi
    · obtain ⟨first, hfirst, hfinish⟩ := ih hi
      exact ⟨first, List.dropLast_subset ts hfirst, hfinish⟩
    · cases hstep with
      | between | first | firstComma | firstFrom | name | comma | fromWord => cases hi
      | location hl | source hl =>
        obtain rfl := List.mem_singleton.mp hi
        cases hname
        exact absurd hl locationOf?_ne_name
      | @bare k f =>
        obtain rfl := List.mem_singleton.mp hi
        obtain ⟨done, pend, rfl, hpend, -⟩ := hsteps.laid
        cases hpend
        exact ⟨f, by simp, rfl⟩

/-- Within a declaration that lists names. -/
def State.Listed : State → Prop
  | .comma _ ns | .names _ ns | .source _ ns => ns ≠ []
  | _ => False

theorem Step.listed (h : Step s t n d) (hs : s.Listed) :
    n.Listed ∧ d = none ∨ ∃ i, d = some i ∧ i.names ≠ [] := by
  cases h with
  | between | first | location | firstComma | firstFrom | bare => exact hs.elim
  | name => exact .inl ⟨List.append_ne_nil_of_left_ne_nil hs _, rfl⟩
  | comma => exact .inl ⟨hs, rfl⟩
  | fromWord => exact .inl ⟨hs, rfl⟩
  | source => exact .inr ⟨_, rfl, hs⟩

/-- From there on, the first declaration that is read has names. -/
theorem exists_names_of_listed (hs : s.Listed) (h : read ending s ts = .ok imports) :
    ∃ i ∈ imports.head?, i.names ≠ [] := by
  induction ts generalizing s imports with
  | nil =>
    rw [read, map_eq_ok] at h
    obtain ⟨d, hd, -⟩ := h
    rcases close_eq_ok_iff.mp hd with ⟨rfl, -⟩ | ⟨start, first, rfl, -⟩
    · exact hs.elim
    · exact hs.elim
  | cons t ts ih =>
    cases hstep : step s t with
    | error fault =>
      rw [read_of_step_error hstep] at h
      cases h
    | ok next =>
      obtain ⟨n, d⟩ := next
      rcases (step_eq_ok_iff.mp hstep).listed hs with ⟨hn, rfl⟩ | ⟨i, rfl, hi⟩
      · exact ih hn (read_of_step_none hstep ▸ h)
      · rw [read_of_step_some hstep, map_eq_ok] at h
        obtain ⟨is, -, rfl⟩ := h
        exact ⟨i, rfl, hi⟩

/-- A name is declared as a bare one in front of imports that can be read, unless a token follows
that goes on with it. -/
theorem read_name_eq_ok_iff (start first : Token) (h : read ending (.between []) ts = .ok js) :
    read ending (.name start first) ts = .ok (declareName start first :: js) ↔
      ¬ ∃ t ∈ ts.head?, t.FollowsName := by
  cases ts with
  | nil =>
    cases h
    exact iff_of_true rfl (by simp)
  | cons t ts =>
    by_cases ht : t.FollowsName
    · refine iff_of_false (fun hread => ?_) (by simp [ht])
      have hlisted : (State.names start [first.text]).Listed := List.cons_ne_nil _ _
      rw [Cursor.read_name_eq ht] at hread
      obtain ⟨i, hi, hnames⟩ := exists_names_of_listed hlisted hread
      cases hi
      exact hnames rfl
    · rw [Cursor.read_name_eq_between ht, h]
      simp [Except.map, ht]

end Import

-- ---------------------------------------------------------------------------
-- Two programs
-- ---------------------------------------------------------------------------

namespace Program

open Import
open Token.Sequence (ofSource)

/-- The last token is the name of a bare import. -/
def EndsInName (p : Program) (seq : Token.Sequence) : Prop :=
  ∃ last ∈ seq.tokens.getLast?, ∃ i ∈ p.imports,
    i.location = .name last.text ∧ i.span.finish = last.finish

variable {s t : String} {p q : Program} {seq rest : Token.Sequence}

/-- The tokens of a program lead to between declarations, with no bracket open, or else to behind a
bare name that it ends in. -/
theorem exists_steps_of_parse {filename : String} (hp : parse filename s = .ok p)
    (hseq : ofSource s = .ok seq) :
    (Steps (.between []) seq.tokens (.between []) p.imports ∧ ¬ p.EndsInName seq) ∨
    ∃ start first is, Steps (.between []) seq.tokens (.name start first) is ∧
      p.imports = is ++ [declareName start first] ∧ p.EndsInName seq := by
  obtain ⟨n, is, d, hsteps, hclose, himports⟩ := read_eq_ok_iff.mp (read_of_parse hp hseq)
  rcases close_eq_ok_iff.mp hclose with ⟨rfl, rfl⟩ | ⟨start, first, rfl, rfl⟩
  · obtain rfl : p.imports = is := by simpa using himports
    refine .inl ⟨hsteps, ?_⟩
    rintro ⟨last, hlast, i, hi, hname, hfinish⟩
    obtain ⟨first, hfirst, hfirst'⟩ := hsteps.exists_mem_dropLast hi hname
    -- The last token would finish where one in front of it does.
    have hpairs := Token.Sequence.pairwise_tokens hseq
    rw [← List.dropLast_append_getLast? last hlast, List.pairwise_append] at hpairs
    have hle : last.finish ≤ last.position := by
      rw [← hfinish, hfirst']
      exact hpairs.2.2 first hfirst last (by simp)
    have hlt := Token.Sequence.position_lt_finish_of_mem hseq (List.mem_of_getLast? hlast)
    exact absurd hle (not_le_of_gt hlt)
  · obtain ⟨done, pend, he, hpend, -⟩ := hsteps.laid
    cases hpend
    have hlast : seq.tokens.getLast? = some first := by simp [he]
    have hmem : declareName start first ∈ p.imports := by simp [himports]
    exact .inr ⟨start, first, is, hsteps, himports, first, hlast, _, hmem, rfl, rfl⟩

theorem exists_parse_iff {filename source : String} {seq : Token.Sequence} {imports : List Import}
    (hseq : ofSource source = .ok seq) :
    (∃ p, parse filename source = .ok p ∧ p.imports = imports) ↔
      Import.read seq.ending (.between []) seq.tokens = .ok imports := by
  constructor
  · rintro ⟨p, hp, rfl⟩
    exact read_of_parse hp hseq
  · intro hread
    exact ⟨_, parse_eq_ok.mpr ⟨seq, imports, hseq, hread, rfl⟩, rfl⟩

/-- Behind a program and a newline, another program is read as it is on its own, further down,
unless the first ends in a bare name and the second begins with what may follow a name. -/
theorem parse_append_newline {f g : String} (hp : parse f s = .ok p) (hq : parse g t = .ok q)
    (hseq : ofSource s = .ok seq) (hrest : ofSource t = .ok rest) (filename : String) :
    (∃ r, parse filename (s ++ "\n" ++ t) = .ok r ∧
      r.imports = p.imports ++ q.imports.map (Import.down (s.toList.count '\n' + 1))) ↔
    ¬ (p.EndsInName seq ∧ ∃ u ∈ rest.tokens.head?, u.FollowsName) := by
  generalize hlines : s.toList.count '\n' + 1 = lines
  have hwhole : ofSource (s ++ "\n" ++ t) = .ok ((rest.down lines).prepend seq.tokens) := by
    rw [Token.Sequence.ofSource_append_line hseq, hrest, hlines]
    rfl
  rw [exists_parse_iff hwhole]
  generalize ((rest.down lines).prepend seq.tokens).ending = ending
  change Import.read ending (.between []) (seq.tokens ++ rest.tokens.map (Token.down lines)) = _ ↔ _
  have hbehind : Import.read ending (.between []) (rest.tokens.map (Token.down lines)) =
      .ok (q.imports.map (Import.down lines)) :=
    Import.read_down lines ending (read_of_parse hq hrest)
  rcases exists_steps_of_parse hp hseq with ⟨hsteps, hnot⟩ |
    ⟨start, first, is, hsteps, himports, hends⟩
  · rw [read_of_steps hsteps, hbehind]
    exact iff_of_true rfl fun hexcepted => hnot hexcepted.1
  · have hmap : ∀ {x : Except Fault (List Import)} {js : List Import},
        x.map (is ++ ·) = .ok (is ++ js) ↔ x = .ok js := by
      intro x js
      cases x <;> simp [Except.map]
    rw [read_of_steps hsteps, himports, List.append_assoc, List.singleton_append, hmap,
      read_name_eq_ok_iff start first hbehind]
    simp [hends]

/-- Two programs that end in a name, one with a bracket behind it and one with a comma. -/
theorem parse_append_newline_comma :
    (∃ p q r, parse "" "import A // b" = .ok p ∧ parse "" "(import) import \"c\"" = .ok q ∧
      parse "" ("import A // b" ++ "\n" ++ "(import) import \"c\"") = .ok r ∧
      r.imports = p.imports ++ q.imports.map (Import.down 1)) ∧
    ∃ p q r, parse "" "import A" = .ok p ∧ parse "" ", B from \"c\"" = .ok q ∧
      parse "" ("import A" ++ "\n" ++ ", B from \"c\"") = .ok r ∧
      r.imports.map Import.content = [(["A", "B"], .quoted "c")] ∧
      r.imports ≠ p.imports ++ q.imports.map (Import.down 1) := by
  obtain ⟨p, hp, -⟩ : ∃ p, parse "" "import A // b" = .ok p ∧ p.filename = "" :=
    map_eq_ok.mp (by decide +kernel)
  obtain ⟨q, hq, -⟩ : ∃ q, parse "" "(import) import \"c\"" = .ok q ∧ q.filename = "" :=
    map_eq_ok.mp (by decide +kernel)
  obtain ⟨seq, hseq, -⟩ : ∃ seq, ofSource "import A // b" = .ok seq ∧ seq.finish = ⟨1, 14⟩ :=
    map_eq_ok.mp (by decide +kernel)
  obtain ⟨rest, hrest, hbracket⟩ : ∃ rest, ofSource "(import) import \"c\"" = .ok rest ∧
      rest.tokens.head? = some ⟨.opening .paren, "(", ⟨1, 1⟩⟩ := map_eq_ok.mp (by decide +kernel)
  obtain ⟨r, hr, hjoined⟩ := (parse_append_newline hp hq hseq hrest "").mpr
    (by simp [hbracket, Token.FollowsName, Token.isFrom])
  obtain ⟨p', hp', himports⟩ : ∃ p, parse "" "import A" = .ok p ∧
      p.imports = [⟨[], .name "A", ⟨⟨1, 1⟩, ⟨1, 9⟩⟩⟩] := map_eq_ok.mp (by decide +kernel)
  obtain ⟨q', hq', -⟩ : ∃ q, parse "" ", B from \"c\"" = .ok q ∧ q.filename = "" :=
    map_eq_ok.mp (by decide +kernel)
  obtain ⟨seq', hseq', hname⟩ : ∃ seq, ofSource "import A" = .ok seq ∧
      seq.tokens.getLast? = some ⟨.identifier, "A", ⟨1, 8⟩⟩ := map_eq_ok.mp (by decide +kernel)
  obtain ⟨rest', hrest', hcomma⟩ : ∃ rest, ofSource ", B from \"c\"" = .ok rest ∧
      rest.tokens.head? = some ⟨.comma, ",", ⟨1, 1⟩⟩ := map_eq_ok.mp (by decide +kernel)
  obtain ⟨r', hr', hnames⟩ : ∃ r, parse "" ("import A" ++ "\n" ++ ", B from \"c\"") = .ok r ∧
      r.imports.map Import.content = [(["A", "B"], .quoted "c")] :=
    map_eq_ok.mp (by decide +kernel)
  have hends : p'.EndsInName seq' :=
    ⟨_, hname, _, by rw [himports]; exact List.mem_singleton_self _, rfl, by decide⟩
  refine ⟨⟨p, q, r, hp, hq, hr, hjoined⟩, p', q', r', hp', hq', hr', hnames, fun hjoined' => ?_⟩
  exact (parse_append_newline hp' hq' hseq' hrest' "").mp ⟨r', hr', hjoined'⟩
    ⟨hends, by simp [hcomma, Token.FollowsName]⟩

end Program

end ContractLinker
