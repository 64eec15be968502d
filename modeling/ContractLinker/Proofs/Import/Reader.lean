import ContractLinker.Failure
import ContractLinker.Proofs.Address
import ContractLinker.Proofs.Outcome
import ContractLinker.Proofs.Token.Sequence

/-!
# Imports where literals stand for locations

`read_linked`: tokens that say the same, apart from literals of addresses that stand for locations,
give the same declarations, apart from addresses that stand for those locations. Where the tokens
stand does not matter.
-/

namespace ContractLinker

/-- The content of a token where literals stand for locations. -/
def Token.linked (assign : String → Address) (locations : List String)
    (w : Token.Kind × String) : Token.Kind × String :=
  if w.1 = .string ∧ w.2 ∈ locations then (.hexadecimal, (assign w.2).literal) else w

namespace Import

-- ---------------------------------------------------------------------------
-- One step
-- ---------------------------------------------------------------------------

section
variable {ending t : Token} {s n : State} {ts : List Token} {fault : Fault} {i : Import}

theorem read_of_step_error (h : step s t = .error fault) :
    read ending s (t :: ts) = .error fault := by
  rw [read, h]

theorem read_of_step_none (h : step s t = .ok (n, none)) :
    read ending s (t :: ts) = read ending n ts := by
  rw [read, h]
  exact congrFun Except.map_id _

theorem read_of_step_some (h : step s t = .ok (n, some i)) :
    read ending s (t :: ts) = (read ending n ts).map (i :: ·) := by
  rw [read, h]
  rfl

end

-- ---------------------------------------------------------------------------
-- Literals in place of locations
-- ---------------------------------------------------------------------------

/-- A location where addresses stand for locations. -/
def Location.linked (assign : String → Address) (locations : List String) : Location → Location
  | .quoted path => if path ∈ locations then .address (assign path) else .quoted path
  | .address a => .address a
  | .name n => .name n

/-- What an import says where addresses stand for locations. -/
def linked (assign : String → Address) (locations : List String) (i : Import) :
    List String × Location :=
  (i.names, i.location.linked assign locations)

/-- States that have read tokens of the same content. -/
inductive Alike : State → State → Prop
  | between {brackets brackets' : List Token} : brackets.map Token.kind = brackets'.map Token.kind →
      Alike (.between brackets) (.between brackets')
  | keyword (start start' : Token) : Alike (.keyword start) (.keyword start')
  | name (start start' : Token) {first first' : Token} : first.text = first'.text →
      Alike (.name start first) (.name start' first')
  | comma (start start' : Token) (names : List String) :
      Alike (.comma start names) (.comma start' names)
  | names (start start' : Token) (names : List String) :
      Alike (.names start names) (.names start' names)
  | source (start start' : Token) (names : List String) :
      Alike (.source start names) (.source start' names)

variable {assign : String → Address} {locations : List String} {t t' : Token} {s s' n : State}
  {d : Option Import}

/-- The two ways in which a token may be linked. -/
theorem linked_cases (h : t'.content = Token.linked assign locations t.content) :
    (t'.kind = t.kind ∧ t'.text = t.text ∧ (t.kind = .string → t.text ∉ locations)) ∨
      (t.kind = .string ∧ t.text ∈ locations ∧ t'.kind = .hexadecimal ∧
        t'.text = (assign t.text).literal) := by
  unfold Token.linked Token.content at h
  split at h
  · next hs => exact .inr ⟨hs.1, hs.2, congrArg Prod.fst h, congrArg Prod.snd h⟩
  · next hs =>
    exact .inl ⟨congrArg Prod.fst h, congrArg Prod.snd h, fun hk hmem => hs ⟨hk, hmem⟩⟩

theorem stepBetween_linked {brackets brackets' : List Token}
    (hb : brackets.map Token.kind = brackets'.map Token.kind)
    (ht : t'.content = Token.linked assign locations t.content)
    (h : stepBetween brackets t = .ok n) :
    ∃ n', stepBetween brackets' t' = .ok n' ∧ Alike n n' := by
  have hnil : brackets = [] ↔ brackets' = [] := by
    rw [← List.map_eq_nil_iff (f := Token.kind), hb, List.map_eq_nil_iff]
  rcases linked_cases ht with ⟨hk, -, -⟩ | ⟨hk, -, hk', -⟩
  · unfold stepBetween at h ⊢
    rw [hk]
    split at h
    · cases h
      simp only [hnil]
      refine ⟨_, rfl, ?_⟩
      split
      · exact .keyword t t'
      · exact .between hb
    · cases h
      exact ⟨_, rfl, .between (by simp [hk, hb])⟩
    · split at h
      · cases h
      · next opener outer =>
        obtain ⟨opener', outer', rfl, hopener, houter⟩ := List.map_eq_cons_iff.mp hb.symm
        split at h
        · next heq =>
          cases h
          refine ⟨_, ?_, .between houter.symm⟩
          simp only [hopener, heq, if_true]
        · cases h
    · cases h
      exact ⟨_, rfl, .between hb⟩
  · simp only [stepBetween, hk] at h
    cases h
    exact ⟨_, by simp only [stepBetween, hk'], .between hb⟩

theorem locationOf?_linked {location : Location} (ha : ∀ path ∈ locations, (assign path).bytes ≠ [])
    (ht : t'.content = Token.linked assign locations t.content)
    (h : locationOf? t = some location) :
    locationOf? t' = some (location.linked assign locations) := by
  rcases linked_cases ht with ⟨hk, htext, hnot⟩ | ⟨hk, hmem, hk', htext⟩
  · unfold locationOf? at h ⊢
    rw [hk, htext]
    split at h
    · next hs => cases h; simp [Location.linked, hnot hs]
    · obtain ⟨a, haddr, rfl⟩ := Option.map_eq_some_iff.mp h
      simp [haddr, Location.linked]
    · cases h
  · simp only [locationOf?, hk] at h
    cases h
    simp [locationOf?, hk', htext, Address.ofText?_literal (ha _ hmem), Location.linked, hmem]

theorem stepLocation_linked {start start' : Token} {names : List String}
    (ha : ∀ path ∈ locations, (assign path).bytes ≠ [])
    (ht : t'.content = Token.linked assign locations t.content)
    (h : stepLocation start names t = .ok (n, d)) :
    ∃ n' d', stepLocation start' names t' = .ok (n', d') ∧ Alike n n' ∧
      d'.map content = d.map (linked assign locations) := by
  unfold stepLocation at h
  split at h
  · next location hloc =>
    cases h
    refine ⟨_, _, by rw [stepLocation, locationOf?_linked ha ht hloc], .between rfl, rfl⟩
  · cases h

theorem kind_linked (ht : t'.content = Token.linked assign locations t.content)
    {kind : Token.Kind} (hstring : kind ≠ .string) (hhex : kind ≠ .hexadecimal) :
    t'.kind = kind ↔ t.kind = kind := by
  rcases linked_cases ht with ⟨hk, -⟩ | ⟨hk, -, hk', -⟩
  · rw [hk]
  · rw [hk, hk']
    exact ⟨fun h => absurd h.symm hhex, fun h => absurd h.symm hstring⟩

theorem isLocation_linked (ht : t'.content = Token.linked assign locations t.content) :
    (t'.kind = .string ∨ t'.kind = .hexadecimal) ↔ (t.kind = .string ∨ t.kind = .hexadecimal) := by
  rcases linked_cases ht with ⟨hk, -⟩ | ⟨hk, -, hk', -⟩
  · rw [hk]
  · simp [hk, hk']

theorem isFrom_linked (ht : t'.content = Token.linked assign locations t.content) :
    t'.isFrom = t.isFrom := by
  rcases linked_cases ht with ⟨hk, htext, -⟩ | ⟨hk, -, hk', -⟩
  · rw [Token.isFrom, Token.isFrom, hk, htext]
  · simp [Token.isFrom, hk, hk']

theorem text_linked (ht : t'.content = Token.linked assign locations t.content)
    (hk : t.kind = .identifier) : t'.text = t.text := by
  rcases linked_cases ht with ⟨-, htext, -⟩ | ⟨hk', -⟩
  · exact htext
  · rw [hk] at hk'
    cases hk'

theorem step_linked (ha : ∀ path ∈ locations, (assign path).bytes ≠ []) (hs : Alike s s')
    (ht : t'.content = Token.linked assign locations t.content) (h : step s t = .ok (n, d)) :
    ∃ n' d', step s' t' = .ok (n', d') ∧ Alike n n' ∧
      d'.map content = d.map (linked assign locations) := by
  have hid : t'.kind = .identifier ↔ t.kind = .identifier := kind_linked ht (by simp) (by simp)
  have hcomma : t'.kind = .comma ↔ t.kind = .comma := kind_linked ht (by simp) (by simp)
  cases hs with
  | between hb =>
    obtain ⟨m, hm, he⟩ := map_eq_ok.mp h
    cases he
    obtain ⟨m', hm', halike⟩ := stepBetween_linked hb ht hm
    exact ⟨m', none, by rw [step, hm']; rfl, halike, rfl⟩
  | keyword start start' =>
    rw [step] at h ⊢
    split at h
    · next hk =>
      cases h
      exact ⟨_, _, if_pos (hid.mpr hk), .name start start' (text_linked ht hk).symm, rfl⟩
    · next hk =>
      rw [if_neg (mt hid.mp hk)]
      exact stepLocation_linked ha ht h
  | @name start start' first first' hfirst =>
    rw [step] at h ⊢
    rw [isFrom_linked ht, ← hfirst]
    simp only [hcomma]
    split at h
    · next hk =>
      cases h
      exact ⟨_, _, if_pos hk, .comma start start' _, rfl⟩
    rw [if_neg ‹_›]
    split at h
    · next hfrom =>
      cases h
      exact ⟨_, _, if_pos hfrom, .source start start' _, rfl⟩
    rw [if_neg ‹_›]
    split at h
    · cases h
    · next hloc =>
      obtain ⟨m, hm, he⟩ := map_eq_ok.mp h
      cases he
      obtain ⟨m', hm', halike⟩ := stepBetween_linked rfl ht hm
      refine ⟨m', some (declareName start' first'), ?_, halike, ?_⟩
      · rw [if_neg (mt (isLocation_linked ht).mp hloc), hm']
        rfl
      · simp [declareName, declare, content, linked, Location.linked, hfirst]
  | comma start start' names =>
    rw [step] at h ⊢
    split at h
    · next hk =>
      cases h
      exact ⟨_, _, by rw [if_pos (hid.mpr hk), text_linked ht hk], .names start start' _, rfl⟩
    · cases h
  | names start start' names =>
    rw [step] at h ⊢
    rw [isFrom_linked ht]
    simp only [hcomma]
    split at h
    · next hk =>
      cases h
      exact ⟨_, _, if_pos hk, .comma start start' names, rfl⟩
    rw [if_neg ‹_›]
    split at h
    · next hfrom =>
      cases h
      exact ⟨_, _, if_pos hfrom, .source start start' names, rfl⟩
    · cases h
  | source start start' names => exact stepLocation_linked ha ht h

theorem close_linked {ending ending' : Token} (hs : Alike s s') (h : close ending s = .ok d) :
    ∃ d', close ending' s' = .ok d' ∧ d'.map content = d.map (linked assign locations) := by
  cases hs with
  | @between brackets brackets' hb =>
    cases brackets with
    | nil =>
      obtain rfl : brackets' = [] := by simpa using hb.symm
      cases h
      exact ⟨none, rfl, rfl⟩
    | cons opener outer => cases h
  | @name start start' first first' hfirst =>
    cases h
    refine ⟨_, rfl, ?_⟩
    simp [declareName, declare, content, linked, Location.linked, hfirst]
  | keyword | comma | names | source => cases h

theorem read_linked {ending ending' : Token} {ts ts' : List Token} {imports : List Import}
    (ha : ∀ path ∈ locations, (assign path).bytes ≠ []) (hs : Alike s s')
    (ht : List.Forall₂ (fun t t' => t'.content = Token.linked assign locations t.content) ts ts')
    (h : read ending s ts = .ok imports) :
    ∃ imports', read ending' s' ts' = .ok imports' ∧
      imports'.map content = imports.map (linked assign locations) := by
  induction ht generalizing s s' imports with
  | nil =>
    obtain ⟨d, hd, rfl⟩ := map_eq_ok.mp h
    obtain ⟨d', hd', he⟩ : ∃ d', close ending' s' = .ok d' ∧
        d'.map content = d.map (linked assign locations) := close_linked hs hd
    exact ⟨d'.toList, by rw [read, hd']; rfl, by rw [← Option.toList_map, he, Option.toList_map]⟩
  | @cons t t' ts ts' htt' _ ih =>
    rw [read] at h
    split at h
    · cases h
    · next n d hstep =>
      obtain ⟨rest, hrest, rfl⟩ := map_eq_ok.mp h
      obtain ⟨n', d', hstep', hn, hd⟩ := step_linked ha hs htt' hstep
      obtain ⟨rest', hrest', he⟩ := ih hn hrest
      refine ⟨d'.toList ++ rest', by simp only [read, hstep', hrest']; rfl, ?_⟩
      rw [List.map_append, List.map_append, he, ← Option.toList_map, hd, Option.toList_map]

-- ---------------------------------------------------------------------------
-- Quoted locations
-- ---------------------------------------------------------------------------

theorem Location.quoted?_eq_some_iff {l : Location} {path : String} :
    l.quoted? = some path ↔ l = .quoted path := by
  cases l <;> simp [quoted?]

theorem locationOf?_eq_quoted {path : String} (h : locationOf? t = some (.quoted path)) :
    t.kind = .string ∧ t.text = path := by
  unfold locationOf? at h
  split at h
  · next hk => cases h; exact ⟨hk, rfl⟩
  · obtain ⟨a, -, ha⟩ := Option.map_eq_some_iff.mp h
    cases ha
  · cases h

theorem stepLocation_eq_quoted {start : Token} {names : List String} {i : Import} {path : String}
    (h : stepLocation start names t = .ok (n, some i)) (hi : i.location = .quoted path) :
    t.kind = .string ∧ t.text = path ∧ i.span.finish = t.finish := by
  unfold stepLocation at h
  split at h
  · next hloc =>
    cases h
    obtain ⟨hk, htext⟩ := locationOf?_eq_quoted (hloc.trans (congrArg some hi))
    exact ⟨hk, htext, rfl⟩
  · cases h

theorem step_eq_quoted {i : Import} {path : String} (h : step s t = .ok (n, some i))
    (hi : i.location = .quoted path) :
    t.kind = .string ∧ t.text = path ∧ i.span.finish = t.finish := by
  cases s with
  | between brackets =>
    obtain ⟨m, -, he⟩ := map_eq_ok.mp h
    cases he
  | keyword start =>
    rw [step] at h
    split at h
    · cases h
    · exact stepLocation_eq_quoted h hi
  | name start first =>
    rw [step] at h
    split at h
    · cases h
    split at h
    · cases h
    split at h
    · cases h
    obtain ⟨m, -, he⟩ := map_eq_ok.mp h
    cases he
    cases hi
  | comma start names => rw [step] at h; split at h <;> cases h
  | names start names =>
    rw [step] at h
    split at h
    · cases h
    split at h <;> cases h
  | source start names => exact stepLocation_eq_quoted h hi

/-- Each quoted location is the text of a string literal among the tokens, with which its
declaration ends. -/
theorem exists_string_of_read {ending : Token} {ts : List Token} {imports : List Import}
    (h : read ending s ts = .ok imports) {i : Import} (hi : i ∈ imports) {path : String}
    (hpath : i.location = .quoted path) :
    ∃ t ∈ ts, t.kind = .string ∧ t.text = path ∧ i.span.finish = t.finish := by
  induction ts generalizing s imports with
  | nil =>
    obtain ⟨d, hd, rfl⟩ := map_eq_ok.mp h
    obtain rfl : d = some i := by simpa using hi
    unfold close at hd
    split at hd <;> cases hd
    cases hpath
  | cons t ts ih =>
    rw [read] at h
    split at h
    · cases h
    · next n d hstep =>
      obtain ⟨rest, hrest, rfl⟩ := map_eq_ok.mp h
      rcases List.mem_append.mp hi with hi | hi
      · obtain rfl : d = some i := by simpa using hi
        exact ⟨t, by simp, step_eq_quoted hstep hpath⟩
      · obtain ⟨u, hu, hut⟩ := ih hrest hi
        exact ⟨u, by simp [hu], hut⟩

end Import

-- ---------------------------------------------------------------------------
-- Programs
-- ---------------------------------------------------------------------------

namespace Program

theorem parse_eq_ok {filename source : String} {p : Program} :
    parse filename source = .ok p ↔ ∃ seq imports, Token.Sequence.ofSource source = .ok seq ∧
      Import.read seq.ending (.between []) seq.tokens = .ok imports ∧
      p = ⟨imports, spanOf seq, filename⟩ := by
  constructor
  · intro h
    unfold parse at h
    split at h
    · cases h
    · next seq hseq =>
      split at h
      · cases h
      · next q hq =>
        cases h
        obtain ⟨imports, hread, rfl⟩ := map_eq_ok.mp hq
        exact ⟨seq, imports, hseq, hread, rfl⟩
  · rintro ⟨seq, imports, hseq, hread, rfl⟩
    simp [parse, hseq, ofTokens, hread, Except.map]

theorem exists_string_of_mem_locations {filename source : String} {p : Program}
    {seq : Token.Sequence} (hp : parse filename source = .ok p)
    (hseq : Token.Sequence.ofSource source = .ok seq) {path : String} (h : path ∈ p.locations) :
    ∃ t ∈ seq.tokens, t.kind = .string ∧ t.text = path := by
  obtain ⟨seq, imports, hseq', hread, rfl⟩ := parse_eq_ok.mp hp
  obtain rfl : _ = seq := Except.ok.inj (hseq.symm.trans hseq')
  obtain ⟨i, hi, hpath⟩ := List.mem_filterMap.mp h
  obtain ⟨t, ht, hk, htext, -⟩ :=
    Import.exists_string_of_read hread hi (Import.Location.quoted?_eq_some_iff.mp hpath)
  exact ⟨t, ht, hk, htext⟩

/-- A program whose locations are linked in the tokens has its locations linked. -/
theorem parse_linked {filename source source' : String} {p : Program} {seq seq' : Token.Sequence}
    {assign : String → Address} {locations : List String}
    (ha : ∀ path ∈ locations, (assign path).bytes ≠ []) (hp : parse filename source = .ok p)
    (hseq : Token.Sequence.ofSource source = .ok seq)
    (hseq' : Token.Sequence.ofSource source' = .ok seq')
    (ht : seq'.tokens.map Token.content =
      (seq.tokens.map Token.content).map (Token.linked assign locations)) :
    ∃ q, parse filename source' = .ok q ∧
      q.imports.map Import.content = p.imports.map (Import.linked assign locations) := by
  obtain ⟨seq, imports, hseq₀, hread, rfl⟩ := parse_eq_ok.mp hp
  obtain rfl : _ = seq := Except.ok.inj (hseq.symm.trans hseq₀)
  have hall : List.Forall₂ (fun t t' => t'.content = Token.linked assign locations t.content)
      seq.tokens seq'.tokens := by
    rw [List.map_map] at ht
    exact (List.forall₂_map_left_iff.mp (List.forall₂_map_right_iff.mp
      (List.forall₂_eq_eq_eq ▸ ht.symm : List.Forall₂ Eq _ _))).imp fun _ _ h => h.symm
  obtain ⟨imports', hread', he⟩ := Import.read_linked ha (.between rfl) hall hread
  exact ⟨_, parse_eq_ok.mpr ⟨seq', imports', hseq', hread', rfl⟩, he⟩

end Program

end ContractLinker
