import ContractLinker.Proofs.Import.Reader

/-!
# The grammar of imports

`Items` says which tokens form a program, and with which declarations, without a state. `read_sound`
and `read_complete` show that the reader accepts exactly these: what a state still accepts is
`Rest`, and a step of the reader passes over the first token of it.
-/

namespace ContractLinker.Import

/-- A token's kind and text. -/
abbrev Word := Token.Kind × String

/-- A declaration as its tokens say it. -/
structure Declaration where
  names : List String
  location : Word
  deriving DecidableEq

/-- The text of a quoted location. -/
def Declaration.quoted? (d : Declaration) : Option String :=
  if d.location.1 = .string then some d.location.2 else none

-- ---------------------------------------------------------------------------
-- Grammar
-- ---------------------------------------------------------------------------

/-- Neither opens nor closes a bracket. -/
def Plain (w : Word) : Prop := ∀ b, w.1 ≠ .opening b ∧ w.1 ≠ .closing b

/-- What may stand within brackets, where `import` is a word like any other. -/
inductive Nested : List Word → Prop
  | nil : Nested []
  | word {w : Word} {ws : List Word} : Plain w → Nested ws → Nested (w :: ws)
  | group (b : Bracket) (s t : String) {inner ws : List Word} : Nested inner → Nested ws →
      Nested ((.opening b, s) :: inner ++ (.closing b, t) :: ws)

/-- Names with commas between. -/
inductive Names : List Word → List String → Prop
  | one (n : String) : Names [(.identifier, n)] [n]
  | more (n s : String) {ws : List Word} {ns : List String} : Names ws ns →
      Names ((.identifier, n) :: (.comma, s) :: ws) (n :: ns)

def IsLocation (w : Word) : Prop := w.1 = .string ∨ w.1 = .hexadecimal

/-- May stand behind an import of a bare name. -/
def EndsName (w : Word) : Prop :=
  w.1 ≠ .comma ∧ ¬ IsLocation w ∧ w ≠ (.identifier, "from")

/-- The tokens of a program, with its declarations. -/
inductive Items : List Word → List Declaration → Prop
  | nil : Items [] []
  | word {w : Word} {ws : List Word} {ds : List Declaration} : w.1 ≠ .importKeyword → Plain w →
      Items ws ds → Items (w :: ws) ds
  | group (b : Bracket) (s t : String) {inner ws : List Word} {ds : List Declaration} :
      Nested inner → Items ws ds →
      Items ((.opening b, s) :: inner ++ (.closing b, t) :: ws) ds
  | location (s : String) {w : Word} {ws : List Word} {ds : List Declaration} : IsLocation w →
      Items ws ds → Items ((.importKeyword, s) :: w :: ws) (⟨[], w⟩ :: ds)
  | name (s n : String) {ws : List Word} {ds : List Declaration} :
      (∀ w ∈ ws.head?, EndsName w) → Items ws ds →
      Items ((.importKeyword, s) :: (.identifier, n) :: ws) (⟨[], (.identifier, n)⟩ :: ds)
  | names (s : String) {us ws : List Word} {ns : List String} {w : Word} {ds : List Declaration} :
      Names us ns → IsLocation w → Items ws ds →
      Items ((.importKeyword, s) :: us ++ (.identifier, "from") :: w :: ws) (⟨ns, w⟩ :: ds)

/-- A location as a word says it. -/
inductive Spelled : Location → Word → Prop
  | quoted (path : String) : Spelled (.quoted path) (.string, path)
  | address {a : Address} {s : String} : Address.ofText? s = some a →
      Spelled (.address a) (.hexadecimal, s)
  | name (n : String) : Spelled (.name n) (.identifier, n)

/-- A declaration as its tokens say it. -/
def Declares (i : Import) (d : Declaration) : Prop :=
  i.names = d.names ∧ Spelled i.location d.location

-- ---------------------------------------------------------------------------
-- What a state still accepts
-- ---------------------------------------------------------------------------

/-- Behind open brackets: their closings first, from the innermost outwards. -/
def Closes : List Token → List Word → List Declaration → Prop
  | [], ws, ds => Items ws ds
  | opener :: outer, ws, ds => ∃ b inner s rest, opener.kind = .opening b ∧ Nested inner ∧
      ws = inner ++ (.closing b, s) :: rest ∧ Closes outer rest ds

/-- A location and the items behind it. -/
def Locates (names : List String) (ws : List Word) (ds : List Declaration) : Prop :=
  ∃ w rest ds', ws = w :: rest ∧ IsLocation w ∧ ds = ⟨names, w⟩ :: ds' ∧ Items rest ds'

/-- More names behind `names`, `from` and a location. -/
def Lists (names : List String) (ws : List Word) (ds : List Declaration) : Prop :=
  ∃ us ns rest, Names us ns ∧ ws = us ++ (.identifier, "from") :: rest ∧
    Locates (names ++ ns) rest ds

/-- Behind the last of `names`: `from`, or a comma and more names. -/
def Continues (names : List String) (ws : List Word) (ds : List Declaration) : Prop :=
  (∃ rest, ws = (.identifier, "from") :: rest ∧ Locates names rest ds) ∨
    ∃ s rest, ws = (.comma, s) :: rest ∧ Lists names rest ds

/-- Behind a bare name. -/
def Bare (n : String) (ws : List Word) (ds : List Declaration) : Prop :=
  ∃ ds', ds = ⟨[], (.identifier, n)⟩ :: ds' ∧ (∀ w ∈ ws.head?, EndsName w) ∧ Items ws ds'

/-- The words behind a state, with the declarations still to come. -/
def Rest : State → List Word → List Declaration → Prop
  | .between brackets, ws, ds => Closes brackets ws ds
  | .keyword _, ws, ds => Locates [] ws ds ∨
    ∃ n rest, ws = (.identifier, n) :: rest ∧ (Bare n rest ds ∨ Continues [n] rest ds)
  | .name _ first, ws, ds => Bare first.text ws ds ∨ Continues [first.text] ws ds
  | .comma _ names, ws, ds => Lists names ws ds
  | .names _ names, ws, ds => Continues names ws ds
  | .source _ names, ws, ds => Locates names ws ds

theorem lists_iff {names : List String} {ws : List Word} {ds : List Declaration} :
    Lists names ws ds ↔ ∃ n rest, ws = (.identifier, n) :: rest ∧
      Continues (names ++ [n]) rest ds := by
  constructor
  · rintro ⟨us, ns, rest, hnames, rfl, hloc⟩
    cases hnames with
    | one n => exact ⟨n, _, rfl, .inl ⟨rest, rfl, hloc⟩⟩
    | more n s hnames =>
      refine ⟨n, _, rfl, .inr ⟨s, _, rfl, _, _, rest, hnames, rfl, ?_⟩⟩
      rwa [List.append_assoc]
  · rintro ⟨n, rest, rfl, ⟨rest, rfl, hloc⟩ | ⟨s, rest, rfl, us, ns, rest, hnames, rfl, hloc⟩⟩
    · exact ⟨_, [n], rest, .one n, rfl, hloc⟩
    · refine ⟨_, n :: ns, rest, .more n s hnames, rfl, ?_⟩
      rwa [List.append_assoc] at hloc

theorem items_import_iff {s : String} {start : Token} {ws : List Word} {ds : List Declaration} :
    Items ((.importKeyword, s) :: ws) ds ↔ Rest (.keyword start) ws ds := by
  constructor
  · intro h
    generalize hall : (Token.Kind.importKeyword, s) :: ws = all at h
    cases h with
    | nil => cases hall
    | word hnot => cases hall; exact absurd rfl hnot
    | group => cases hall
    | location s hloc hitems => cases hall; exact .inl ⟨_, _, _, rfl, hloc, rfl, hitems⟩
    | name s n hends hitems => cases hall; exact .inr ⟨n, _, rfl, .inl ⟨_, rfl, hends, hitems⟩⟩
    | names s hnames hloc hitems =>
      rw [List.cons_append] at hall
      obtain ⟨-, rfl⟩ := List.cons.inj hall
      have hlists : Lists [] _ _ := ⟨_, _, _, hnames, rfl, _, _, _, rfl, hloc, rfl, hitems⟩
      obtain ⟨n, rest, he, hcont⟩ := lists_iff.mp hlists
      exact .inr ⟨n, rest, he, .inr hcont⟩
  · rintro (⟨w, rest, ds, rfl, hloc, rfl, hitems⟩ |
      ⟨n, rest, rfl, ⟨ds, rfl, hends, hitems⟩ | hcont⟩)
    · exact .location s hloc hitems
    · exact .name s n hends hitems
    · have hlists : Lists [] ((.identifier, n) :: rest) ds := lists_iff.mpr ⟨n, rest, rfl, hcont⟩
      obtain ⟨us, ns, rest, hnames, he, w, rest, ds, rfl, hloc, rfl, hitems⟩ := hlists
      rw [he]
      exact .names s hnames hloc hitems

variable {t : Token} {s n : State} {d : Option Import} {ws : List Word} {ds : List Declaration}

theorem content_of_kind {kind : Token.Kind} (h : t.kind = kind) : t.content = (kind, t.text) := by
  rw [Token.content, h]

/-- What a token does outside declarations. -/
theorem stepBetween_eq_ok_iff {brackets : List Token} : stepBetween brackets t = .ok n ↔
    (t.kind = .importKeyword ∧ brackets = [] ∧ n = .keyword t) ∨
    (∃ b, t.kind = .opening b ∧ n = .between (t :: brackets)) ∨
    (∃ b opener outer, t.kind = .closing b ∧ brackets = opener :: outer ∧
      opener.kind = .opening b ∧ n = .between outer) ∨
    (Plain t.content ∧ (t.kind = .importKeyword → brackets ≠ []) ∧ n = .between brackets) := by
  unfold stepBetween Plain Token.content
  cases hk : t.kind with
  | importKeyword => by_cases hb : brackets = [] <;> simp [hb, eq_comm]
  | opening b => simp [eq_comm]
  | closing b =>
    cases brackets with
    | nil => simp
    | cons opener outer => by_cases ho : opener.kind = .opening b <;> simp [ho, eq_comm]
  | _ => simp [eq_comm]

-- ---------------------------------------------------------------------------
-- Completeness
-- ---------------------------------------------------------------------------

theorem stepBetween_complete {brackets : List Token} (h : Closes brackets (t.content :: ws) ds) :
    ∃ n, stepBetween brackets t = .ok n ∧ Rest n ws ds := by
  cases brackets with
  | nil =>
    by_cases himport : t.kind = .importKeyword
    · refine ⟨_, stepBetween_eq_ok_iff.mpr (.inl ⟨himport, rfl, rfl⟩), ?_⟩
      rw [content_of_kind himport] at h
      exact items_import_iff.mp h
    · have h : Items (t.content :: ws) ds := h
      generalize hw : t.content = w at h
      cases h with
      | word _ hplain hitems =>
        rw [← hw] at hplain
        exact ⟨_, stepBetween_eq_ok_iff.mpr (.inr (.inr (.inr
          ⟨hplain, fun hk => absurd hk himport, rfl⟩))), hitems⟩
      | group b s s' hin hitems =>
        have hk : t.kind = .opening b := congrArg Prod.fst hw
        exact ⟨_, stepBetween_eq_ok_iff.mpr (.inr (.inl ⟨b, hk, rfl⟩)),
          b, _, s', _, hk, hin, rfl, hitems⟩
      | location | name | names => exact absurd (congrArg Prod.fst hw) himport
  | cons opener outer =>
    obtain ⟨b, inner, s, rest, ho, hin, he, hrest⟩ := h
    cases hin with
    | nil =>
      obtain ⟨hw, rfl⟩ := List.cons.inj he
      have hk : t.kind = .closing b := congrArg Prod.fst hw
      exact ⟨_, stepBetween_eq_ok_iff.mpr (.inr (.inr (.inl ⟨b, opener, outer, hk, rfl, ho, rfl⟩))),
        hrest⟩
    | word hplain hin =>
      obtain ⟨rfl, rfl⟩ := List.cons.inj he
      exact ⟨_, stepBetween_eq_ok_iff.mpr (.inr (.inr (.inr ⟨hplain, by simp, rfl⟩))),
        b, _, s, rest, ho, hin, rfl, hrest⟩
    | group b' s' s'' hinner hin =>
      rw [List.append_assoc, List.cons_append] at he
      obtain ⟨hw, rfl⟩ := List.cons.inj he
      have hk : t.kind = .opening b' := congrArg Prod.fst hw
      exact ⟨_, stepBetween_eq_ok_iff.mpr (.inr (.inl ⟨b', hk, rfl⟩)), b', _, s'', _, hk, hinner,
        rfl, b, _, s, rest, ho, hin, rfl, hrest⟩

/-- A declaration that a step completes. -/
def Completes (d : Option Import) (ds : List Declaration) : Prop :=
  List.Forall₂ Declares d.toList ds

theorem locationOf?_complete (hx : t.kind = .hexadecimal → ∃ a, Address.ofText? t.text = some a)
    (h : IsLocation t.content) :
    ∃ location, locationOf? t = some location ∧ Spelled location t.content := by
  rcases h with hk | hk
  · exact ⟨.quoted t.text, by simp [locationOf?, show t.kind = _ from hk],
      by rw [content_of_kind hk]; exact .quoted _⟩
  · obtain ⟨a, ha⟩ := hx hk
    exact ⟨.address a, by simp [locationOf?, show t.kind = _ from hk, ha],
      by rw [content_of_kind hk]; exact .address ha⟩

theorem stepLocation_complete {start : Token} {names : List String}
    (hx : t.kind = .hexadecimal → ∃ a, Address.ofText? t.text = some a)
    (h : Locates names (t.content :: ws) ds) : ∃ n d ds₁ ds₂,
      stepLocation start names t = .ok (n, d) ∧ ds = ds₁ ++ ds₂ ∧ Completes d ds₁ ∧
        Rest n ws ds₂ := by
  obtain ⟨w, rest, ds', he, hw, rfl, hitems⟩ := h
  obtain ⟨rfl, rfl⟩ := List.cons.inj he
  obtain ⟨location, hloc, hdeclares⟩ := locationOf?_complete hx hw
  refine ⟨.between [], _, [⟨names, t.content⟩], ds', by rw [stepLocation, hloc], rfl, ?_, hitems⟩
  exact .cons ⟨rfl, hdeclares⟩ .nil

theorem isFrom_iff : t.isFrom = true ↔ t.content = (.identifier, "from") := by
  simp [Token.isFrom, Token.content]

theorem step_complete (hx : t.kind = .hexadecimal → ∃ a, Address.ofText? t.text = some a)
    (h : Rest s (t.content :: ws) ds) : ∃ n d ds₁ ds₂,
      step s t = .ok (n, d) ∧ ds = ds₁ ++ ds₂ ∧ Completes d ds₁ ∧ Rest n ws ds₂ := by
  have hcontinues : ∀ {start names}, Continues names (t.content :: ws) ds →
      (t.kind = .comma ∧ Rest (.comma start names) ws ds) ∨
        (t.kind ≠ .comma ∧ t.isFrom = true ∧ Rest (.source start names) ws ds) := by
    rintro start names (⟨rest, he, hloc⟩ | ⟨c, rest, he, hlists⟩)
    · obtain ⟨hw, rfl⟩ := List.cons.inj he
      have hk : t.kind = .identifier := congrArg Prod.fst hw
      exact .inr ⟨by simp [hk], isFrom_iff.mpr hw, hloc⟩
    · obtain ⟨hw, rfl⟩ := List.cons.inj he
      exact .inl ⟨congrArg Prod.fst hw, hlists⟩
  cases s with
  | between brackets =>
    obtain ⟨n, hn, hrest⟩ := stepBetween_complete h
    exact ⟨n, none, [], ds, by rw [step, hn]; rfl, rfl, .nil, hrest⟩
  | keyword start =>
    rcases h with hloc | ⟨n, rest, he, hname⟩
    · obtain ⟨w, rest, ds', he, hw, -⟩ := id hloc
      obtain ⟨rfl, -⟩ := List.cons.inj he
      have hk : t.kind ≠ .identifier := by
        intro hk
        rcases hw with hw | hw <;> cases hk.symm.trans hw
      rw [step, if_neg hk]
      exact stepLocation_complete hx hloc
    · obtain ⟨hw, rfl⟩ := List.cons.inj he
      have hk : t.kind = .identifier := congrArg Prod.fst hw
      obtain rfl : t.text = n := congrArg Prod.snd hw
      exact ⟨.name start t, none, [], ds, by rw [step, if_pos hk], rfl, .nil, hname⟩
  | name start first =>
    rcases h with ⟨ds', rfl, hends, hitems⟩ | hcont
    · obtain ⟨hcomma, hloc, hfrom⟩ : EndsName t.content := hends _ rfl
      have hcomma : ¬ t.kind = .comma := hcomma
      have hloc : ¬ (t.kind = .string ∨ t.kind = .hexadecimal) := hloc
      have hfrom : ¬ t.isFrom = true := fun h => hfrom (isFrom_iff.mp h)
      have hitems : Closes [] (t.content :: ws) ds' := hitems
      obtain ⟨n, hn, hrest⟩ := stepBetween_complete hitems
      refine ⟨n, some (declareName start first), [_], ds', ?_, rfl, ?_, hrest⟩
      · rw [step, if_neg hcomma, if_neg hfrom, if_neg hloc, hn]
        rfl
      · exact .cons ⟨rfl, .name first.text⟩ .nil
    · rcases hcontinues hcont with ⟨hk, hrest⟩ | ⟨hk, hfrom, hrest⟩
      · exact ⟨_, none, [], ds, by rw [step, if_pos hk], rfl, .nil, hrest⟩
      · exact ⟨_, none, [], ds, by rw [step, if_neg hk, if_pos hfrom], rfl, .nil, hrest⟩
  | comma start names =>
    obtain ⟨n, rest, he, hcont⟩ := lists_iff.mp h
    obtain ⟨hw, rfl⟩ := List.cons.inj he
    have hk : t.kind = .identifier := congrArg Prod.fst hw
    obtain rfl : t.text = n := congrArg Prod.snd hw
    exact ⟨.names start (names ++ [t.text]), none, [], ds, by rw [step, if_pos hk], rfl, .nil,
      hcont⟩
  | names start names =>
    rcases hcontinues h with ⟨hk, hrest⟩ | ⟨hk, hfrom, hrest⟩
    · exact ⟨_, none, [], ds, by rw [step, if_pos hk], rfl, .nil, hrest⟩
    · exact ⟨_, none, [], ds, by rw [step, if_neg hk, if_pos hfrom], rfl, .nil, hrest⟩
  | source start names => exact stepLocation_complete hx h

theorem close_complete (ending : Token) (h : Rest s [] ds) :
    ∃ d, close ending s = .ok d ∧ Completes d ds := by
  cases s with
  | between brackets =>
    cases brackets with
    | nil => cases h; exact ⟨none, rfl, .nil⟩
    | cons opener outer =>
      obtain ⟨b, inner, s, rest, -, -, he, -⟩ := h
      simp at he
  | keyword start =>
    rcases h with ⟨w, rest, ds', he, -⟩ | ⟨n, rest, he, -⟩ <;> cases he
  | name start first =>
    rcases h with ⟨ds', rfl, -, hitems⟩ | ⟨rest, he, -⟩ | ⟨c, rest, he, -⟩
    · cases hitems
      exact ⟨_, rfl, .cons ⟨rfl, .name first.text⟩ .nil⟩
    · cases he
    · cases he
  | comma start names =>
    obtain ⟨n, rest, he, -⟩ := lists_iff.mp h
    cases he
  | names start names => rcases h with ⟨rest, he, -⟩ | ⟨c, rest, he, -⟩ <;> cases he
  | source start names =>
    obtain ⟨w, rest, ds', he, -⟩ := h
    cases he

/-- The reader accepts what the grammar does, and finds its declarations. -/
theorem read_complete (ending : Token) {ts : List Token}
    (hx : ∀ t ∈ ts, t.kind = .hexadecimal → ∃ a, Address.ofText? t.text = some a)
    (h : Rest s (ts.map Token.content) ds) :
    ∃ imports, read ending s ts = .ok imports ∧ List.Forall₂ Declares imports ds := by
  induction ts generalizing s ds with
  | nil =>
    obtain ⟨d, hd, hdeclares⟩ := close_complete ending h
    exact ⟨d.toList, by rw [read, hd]; rfl, hdeclares⟩
  | cons t ts ih =>
    obtain ⟨n, d, ds₁, ds₂, hstep, rfl, hdeclares, hrest⟩ := step_complete (hx t (by simp)) h
    obtain ⟨imports, hread, hdeclares'⟩ := ih (fun u hu => hx u (by simp [hu])) hrest
    refine ⟨d.toList ++ imports, by simp only [read, hstep, hread]; rfl, ?_⟩
    exact List.rel_append hdeclares hdeclares'

-- ---------------------------------------------------------------------------
-- Soundness
-- ---------------------------------------------------------------------------

theorem stepBetween_sound {brackets : List Token} (h : stepBetween brackets t = .ok n)
    (hr : Rest n ws ds) : Closes brackets (t.content :: ws) ds := by
  rcases stepBetween_eq_ok_iff.mp h with ⟨hk, rfl, rfl⟩ | ⟨b, hk, rfl⟩ |
    ⟨b, opener, outer, hk, rfl, ho, rfl⟩ | ⟨hplain, hnot, rfl⟩
  · rw [content_of_kind hk]
    exact items_import_iff.mpr hr
  · obtain ⟨b', inner, s, rest, hk', hin, rfl, hrest⟩ := hr
    obtain rfl : b = b' := by simpa [hk] using hk'
    rw [content_of_kind hk]
    cases brackets with
    | nil => exact .group b _ s hin hrest
    | cons opener outer =>
      obtain ⟨b', inner', s', rest', ho, hin', rfl, hrest⟩ := hrest
      exact ⟨b', _, s', rest', ho, .group b t.text s hin hin', by simp, hrest⟩
  · exact ⟨b, [], t.text, ws, ho, .nil, by rw [content_of_kind hk]; rfl, hr⟩
  · cases brackets with
    | nil => exact .word (fun hk => hnot hk rfl) hplain hr
    | cons opener outer =>
      obtain ⟨b, inner, s, rest, ho, hin, rfl, hrest⟩ := hr
      exact ⟨b, _, s, rest, ho, .word hplain hin, rfl, hrest⟩

theorem stepLocation_sound {start : Token} {names : List String}
    (h : stepLocation start names t = .ok (n, d)) (hr : Rest n ws ds) :
    ∃ ds', Locates names (t.content :: ws) ds' := by
  have hloc : IsLocation t.content := by
    unfold stepLocation locationOf? at h
    split at h
    · next hl =>
      split at hl
      · exact .inl ‹_›
      · exact .inr ‹_›
      · cases hl
    · cases h
  unfold stepLocation at h
  split at h
  · cases h
    exact ⟨_, t.content, ws, ds, rfl, hloc, rfl, hr⟩
  · cases h

theorem step_sound (h : step s t = .ok (n, d)) (hr : Rest n ws ds) :
    ∃ ds', Rest s (t.content :: ws) ds' := by
  cases s with
  | between brackets =>
    obtain ⟨m, hm, he⟩ := map_eq_ok.mp h
    cases he
    exact ⟨ds, stepBetween_sound hm hr⟩
  | keyword start =>
    rw [step] at h
    split at h
    · next hk =>
      cases h
      exact ⟨ds, .inr ⟨t.text, ws, by rw [content_of_kind hk], hr⟩⟩
    · obtain ⟨ds', hloc⟩ := stepLocation_sound h hr
      exact ⟨ds', .inl hloc⟩
  | name start first =>
    rw [step] at h
    split at h
    · next hk =>
      cases h
      exact ⟨ds, .inr (.inr ⟨t.text, ws, by rw [content_of_kind hk], hr⟩)⟩
    split at h
    · next hfrom =>
      cases h
      exact ⟨ds, .inr (.inl ⟨ws, by rw [isFrom_iff.mp hfrom], hr⟩)⟩
    split at h
    · cases h
    · next hcomma hfrom hloc =>
      obtain ⟨m, hm, he⟩ := map_eq_ok.mp h
      cases he
      refine ⟨_, .inl ⟨ds, rfl, ?_, stepBetween_sound hm hr⟩⟩
      rintro w ⟨⟩
      exact ⟨hcomma, hloc, fun hw => hfrom (isFrom_iff.mpr hw)⟩
  | comma start names =>
    rw [step] at h
    split at h
    · next hk =>
      cases h
      exact ⟨ds, lists_iff.mpr ⟨t.text, ws, by rw [content_of_kind hk], hr⟩⟩
    · cases h
  | names start names =>
    rw [step] at h
    split at h
    · next hk =>
      cases h
      exact ⟨ds, .inr ⟨t.text, ws, by rw [content_of_kind hk], hr⟩⟩
    split at h
    · next hfrom =>
      cases h
      exact ⟨ds, .inl ⟨ws, by rw [isFrom_iff.mp hfrom], hr⟩⟩
    · cases h
  | source start names => exact stepLocation_sound h hr

theorem close_sound {ending : Token} (h : close ending s = .ok d) : ∃ ds, Rest s [] ds := by
  unfold close at h
  split at h
  · exact ⟨[], .nil⟩
  · cases h
  · cases h
  · next start first =>
    exact ⟨[⟨[], (.identifier, first.text)⟩], .inl ⟨[], rfl, by simp, .nil⟩⟩
  · cases h
  · cases h
  · cases h

theorem read_sound {ending : Token} {ts : List Token} {imports : List Import}
    (h : read ending s ts = .ok imports) : ∃ ds, Rest s (ts.map Token.content) ds := by
  induction ts generalizing s imports with
  | nil =>
    obtain ⟨d, hd, -⟩ := map_eq_ok.mp h
    exact close_sound hd
  | cons t ts ih =>
    rw [read] at h
    split at h
    · cases h
    · next hstep =>
      obtain ⟨rest, hrest, -⟩ := map_eq_ok.mp h
      obtain ⟨ds, hr⟩ := ih hrest
      exact step_sound hstep hr

-- ---------------------------------------------------------------------------
-- Programs
-- ---------------------------------------------------------------------------

theorem quoted?_of_declares {i : Import} {c : Declaration} (h : Declares i c) :
    i.location.quoted? = c.quoted? := by
  obtain ⟨names, location, span⟩ := i
  obtain ⟨names', word⟩ := c
  obtain ⟨-, hl⟩ := h
  cases hl <;> rfl

theorem filterMap_quoted?_of_declares {imports : List Import}
    (h : List.Forall₂ Declares imports ds) :
    imports.filterMap (·.location.quoted?) = ds.filterMap Declaration.quoted? := by
  induction h with
  | nil => rfl
  | cons hdeclares _ ih => simp only [List.filterMap_cons, quoted?_of_declares hdeclares, ih]

/-- A source with tokens is a program exactly if its tokens are items, and then its imports are
their declarations. -/
theorem parse_iff_items {filename source : String} {seq : Token.Sequence}
    (hseq : Token.Sequence.ofSource source = .ok seq) :
    ((∃ p, Program.parse filename source = .ok p) ↔
      ∃ ds, Items (seq.tokens.map Token.content) ds) ∧
    ∀ p ds, Program.parse filename source = .ok p → Items (seq.tokens.map Token.content) ds →
      List.Forall₂ Declares p.imports ds ∧ p.locations = ds.filterMap Declaration.quoted? := by
  have hcomplete : ∀ {ds}, Items (seq.tokens.map Token.content) ds → ∃ imports,
      read seq.ending (.between []) seq.tokens = .ok imports ∧ List.Forall₂ Declares imports ds :=
    fun h => read_complete (s := .between []) seq.ending
      (fun t ht => Token.Sequence.exists_address hseq ht) h
  refine ⟨⟨?_, ?_⟩, ?_⟩
  · rintro ⟨p, hp⟩
    obtain ⟨seq', imports, hseq', hread, -⟩ := Program.parse_eq_ok.mp hp
    obtain rfl : seq = seq' := Except.ok.inj (hseq.symm.trans hseq')
    exact read_sound hread
  · rintro ⟨ds, hitems⟩
    obtain ⟨imports, hread, -⟩ := hcomplete hitems
    exact ⟨_, Program.parse_eq_ok.mpr ⟨seq, imports, hseq, hread, rfl⟩⟩
  · intro p ds hp hitems
    obtain ⟨seq', imports, hseq', hread, rfl⟩ := Program.parse_eq_ok.mp hp
    obtain rfl : seq = seq' := Except.ok.inj (hseq.symm.trans hseq')
    obtain ⟨imports', hread', hdeclares⟩ := hcomplete hitems
    obtain rfl : imports = imports' := Except.ok.inj (hread.symm.trans hread')
    exact ⟨hdeclares, filterMap_quoted?_of_declares hdeclares⟩

/-- A bare name, an import within brackets, and names from an address. -/
theorem parse_iff_items_mixed : ∃ seq p,
    Token.Sequence.ofSource "import A (import) import b, c from 0x1" = .ok seq ∧
    Items (seq.tokens.map Token.content)
      [⟨[], (.identifier, "A")⟩, ⟨["b", "c"], (.hexadecimal, "0x1")⟩] ∧
    Program.parse "" "import A (import) import b, c from 0x1" = .ok p ∧
    List.Forall₂ Declares p.imports
      [⟨[], (.identifier, "A")⟩, ⟨["b", "c"], (.hexadecimal, "0x1")⟩] ∧
    p.locations = [] := by
  obtain ⟨seq, hseq, hwords⟩ : ∃ seq,
      Token.Sequence.ofSource "import A (import) import b, c from 0x1" = .ok seq ∧
      seq.tokens.map Token.content = (.importKeyword, "import") :: (.identifier, "A") ::
        ((.opening .paren, "(") :: [(.importKeyword, "import")] ++ (.closing .paren, ")") ::
        ((.importKeyword, "import") :: [(.identifier, "b"), (.comma, ","), (.identifier, "c")] ++
        [(.identifier, "from"), (.hexadecimal, "0x1")])) :=
    map_eq_ok.mp (by decide +kernel)
  have hends : EndsName (.opening .paren, "(") := ⟨by decide, by simp [IsLocation], by decide⟩
  have hnames : Names [(.identifier, "b"), (.comma, ","), (.identifier, "c")] ["b", "c"] :=
    .more "b" "," (.one "c")
  have hitems : Items (seq.tokens.map Token.content)
      [⟨[], (.identifier, "A")⟩, ⟨["b", "c"], (.hexadecimal, "0x1")⟩] := by
    rw [hwords]
    refine .name _ _ (by rintro w ⟨⟩; exact hends) (.group _ _ _ ?_ ?_)
    · exact .word (by simp [Plain]) .nil
    · exact .names _ hnames (.inr rfl) .nil
  obtain ⟨p, hp⟩ : ∃ p, Program.parse "" "import A (import) import b, c from 0x1" = .ok p :=
    (parse_iff_items hseq).1.mpr ⟨_, hitems⟩
  obtain ⟨hdeclares, hlocations⟩ := (parse_iff_items hseq).2 p _ hp hitems
  exact ⟨seq, p, hseq, hitems, hp, hdeclares, hlocations⟩

end ContractLinker.Import
