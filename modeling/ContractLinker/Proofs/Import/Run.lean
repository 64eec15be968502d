import ContractLinker.Proofs.Import.Grammar
import Mathlib.Data.List.Induction

/-!
# Runs of the reader

`Step` says what each token does in each state, one constructor for each way on; a run is a chain of
steps. `read_of_steps`: reading goes on from where a run leads. `steps_or_refused`: tokens that are
no run have a first one that is refused, and the refusal names it.
-/

namespace ContractLinker.Import

/-- The state behind a token, and the declaration that it completes. -/
inductive Step : State → Token → State → Option Import → Prop
  | between {brackets : List Token} {t : Token} {n : State} : stepBetween brackets t = .ok n →
      Step (.between brackets) t n none
  | first {start t : Token} : t.kind = .identifier → Step (.keyword start) t (.name start t) none
  | location {start t : Token} {l : Location} : locationOf? t = some l →
      Step (.keyword start) t (.between []) (some (declare start t [] l))
  | firstComma {start first t : Token} : t.kind = .comma →
      Step (.name start first) t (.comma start [first.text]) none
  | firstFrom {start first t : Token} : t.isFrom = true →
      Step (.name start first) t (.source start [first.text]) none
  | bare {start first t : Token} {n : State} : EndsName t.content → stepBetween [] t = .ok n →
      Step (.name start first) t n (some (declareName start first))
  | name {start t : Token} {names : List String} : t.kind = .identifier →
      Step (.comma start names) t (.names start (names ++ [t.text])) none
  | comma {start t : Token} {names : List String} : t.kind = .comma →
      Step (.names start names) t (.comma start names) none
  | fromWord {start t : Token} {names : List String} : t.isFrom = true →
      Step (.names start names) t (.source start names) none
  | source {start t : Token} {names : List String} {l : Location} : locationOf? t = some l →
      Step (.source start names) t (.between []) (some (declare start t names l))

variable {s n m : State} {t ending : Token} {ts us : List Token} {d : Option Import}
  {is imports : List Import} {fault : Fault}

theorem endsName_content_iff : EndsName t.content ↔
    t.kind ≠ .comma ∧ ¬ (t.kind = .string ∨ t.kind = .hexadecimal) ∧ ¬ t.isFrom = true := by
  rw [isFrom_iff]
  rfl

theorem kind_of_isFrom (h : t.isFrom = true) : t.kind = .identifier :=
  congrArg Prod.fst (isFrom_iff.mp h)

theorem kind_of_locationOf? {l : Location} (h : locationOf? t = some l) :
    t.kind = .string ∨ t.kind = .hexadecimal := by
  unfold locationOf? at h
  split at h
  · next hk => exact .inl hk
  · next hk => exact .inr hk
  · cases h

theorem stepLocation_eq_ok_iff {start : Token} {names : List String} :
    stepLocation start names t = .ok (n, d) ↔
      ∃ l, locationOf? t = some l ∧ n = .between [] ∧ d = some (declare start t names l) := by
  unfold stepLocation
  cases locationOf? t <;> simp [eq_comm]

theorem Step.eq_ok (h : Step s t n d) : step s t = .ok (n, d) := by
  cases h with
  | between h => simp [step, h, Except.map]
  | first hk => simp [step, hk]
  | location hl =>
    have hk : t.kind ≠ .identifier := by
      rcases kind_of_locationOf? hl with hk | hk <;> simp [hk]
    simp [step, hk, stepLocation_eq_ok_iff, hl]
  | firstComma hk => simp [step, hk]
  | firstFrom hfrom => simp [step, hfrom, kind_of_isFrom hfrom]
  | bare hends h =>
    obtain ⟨hcomma, hloc, hfrom⟩ := endsName_content_iff.mp hends
    simp only [step, if_neg hcomma, if_neg hloc, if_neg hfrom, h]
    rfl
  | name hk => simp [step, hk]
  | comma hk => simp [step, hk]
  | fromWord hfrom => simp [step, hfrom, kind_of_isFrom hfrom]
  | source hl => simp [step, stepLocation_eq_ok_iff, hl]

theorem step_eq_ok_iff : step s t = .ok (n, d) ↔ Step s t n d := by
  refine ⟨fun h => ?_, Step.eq_ok⟩
  cases s with
  | between brackets =>
    obtain ⟨m, hm, he⟩ := map_eq_ok.mp h
    cases he
    exact .between hm
  | keyword start =>
    simp only [step] at h
    split at h
    · next hk => cases h; exact .first hk
    · obtain ⟨l, hl, rfl, rfl⟩ := stepLocation_eq_ok_iff.mp h
      exact .location hl
  | name start first =>
    simp only [step] at h
    split at h
    · next hk => cases h; exact .firstComma hk
    split at h
    · next hfrom => cases h; exact .firstFrom hfrom
    split at h
    · cases h
    · next hcomma hfrom hloc =>
      obtain ⟨m, hm, he⟩ := map_eq_ok.mp h
      cases he
      exact .bare (endsName_content_iff.mpr ⟨hcomma, hloc, hfrom⟩) hm
  | comma start names =>
    simp only [step] at h
    split at h
    · next hk => cases h; exact .name hk
    · cases h
  | names start names =>
    simp only [step] at h
    split at h
    · next hk => cases h; exact .comma hk
    split at h
    · next hfrom => cases h; exact .fromWord hfrom
    · cases h
  | source start names =>
    obtain ⟨l, hl, rfl, rfl⟩ := stepLocation_eq_ok_iff.mp h
    exact .source hl

-- ---------------------------------------------------------------------------
-- Refusals
-- ---------------------------------------------------------------------------

/-- A refused token is the one that the fault names. -/
def Fault.Refuses (fault : Fault) (t : Token) : Prop := fault.token = t ∧ fault.cause ≠ .unclosed

theorem refuses_of_stepBetween {brackets : List Token} (h : stepBetween brackets t = .error fault) :
    fault.Refuses t := by
  unfold stepBetween at h
  split at h
  · cases h
  · cases h
  · split at h
    · cases h; exact ⟨rfl, by simp⟩
    split at h
    · cases h
    · cases h; exact ⟨rfl, by simp⟩
  · cases h

theorem refuses_of_stepLocation {start : Token} {names : List String}
    (h : stepLocation start names t = .error fault) : fault.Refuses t := by
  unfold stepLocation at h
  split at h <;> cases h
  exact ⟨rfl, by simp⟩

theorem refuses_of_step (h : step s t = .error fault) : fault.Refuses t := by
  cases s with
  | between brackets => exact refuses_of_stepBetween (map_eq_error.mp h)
  | keyword start =>
    simp only [step] at h
    split at h
    · cases h
    · exact refuses_of_stepLocation h
  | name start first =>
    simp only [step] at h
    split at h
    · cases h
    split at h
    · cases h
    split at h
    · cases h; exact ⟨rfl, by simp⟩
    · exact refuses_of_stepBetween (map_eq_error.mp h)
  | comma start names =>
    simp only [step] at h
    split at h <;> cases h
    exact ⟨rfl, by simp⟩
  | names start names =>
    simp only [step] at h
    split at h
    · cases h
    split at h <;> cases h
    exact ⟨rfl, by simp⟩
  | source start names => exact refuses_of_stepLocation h

theorem close_eq_ok_iff : close ending s = .ok d ↔
    (s = .between [] ∧ d = none) ∨
      ∃ start first, s = .name start first ∧ d = some (declareName start first) := by
  unfold close
  split <;> simp [eq_comm]

/-- At the end, a bracket that is open is named, and else the end itself. -/
theorem close_eq_error (h : close ending s = .error fault) :
    (∃ opener outer, s = .between (opener :: outer) ∧ fault = ⟨.unclosed, opener⟩) ∨
      fault.Refuses ending := by
  unfold close at h
  split at h <;> cases h
  · exact .inl ⟨_, _, rfl, rfl⟩
  all_goals exact .inr ⟨rfl, by simp⟩

-- ---------------------------------------------------------------------------
-- Runs
-- ---------------------------------------------------------------------------

/-- From a state over tokens to a state, with the declarations completed on the way. -/
inductive Steps (s : State) : List Token → State → List Import → Prop
  | refl : Steps s [] s []
  | tail {ts : List Token} {n m : State} {is : List Import} {t : Token} {d : Option Import} :
      Steps s ts n is → Step n t m d → Steps s (ts ++ [t]) m (is ++ d.toList)

theorem read_of_steps (h : Steps s ts n is) (ending : Token) (us : List Token) :
    read ending s (ts ++ us) = (read ending n us).map (is ++ ·) := by
  induction h generalizing us with
  | refl => cases hread : read ending s us <;> simp [hread, Except.map]
  | @tail ts n m is t d _ hstep ih =>
    have hread : read ending n (t :: us) = (read ending m us).map (d.toList ++ ·) := by
      simp only [read, hstep.eq_ok]
    rw [List.append_assoc, ih, List.singleton_append, hread]
    cases read ending m us <;> simp [Except.map]

/-- Tokens are a run, or one of them is the first to be refused. -/
theorem steps_or_refused (s : State) (ts : List Token) : (∃ n is, Steps s ts n is) ∨
    ∃ before t behind n is fault, ts = before ++ t :: behind ∧ Steps s before n is ∧
      step n t = .error fault := by
  induction ts using List.reverseRecOn with
  | nil => exact .inl ⟨s, [], .refl⟩
  | append_singleton ts t ih =>
    rcases ih with ⟨n, is, hsteps⟩ | ⟨before, u, behind, n, is, fault, rfl, hsteps, hfault⟩
    · cases hstep : step n t with
      | error fault => exact .inr ⟨ts, t, [], n, is, fault, rfl, hsteps, hstep⟩
      | ok next => exact .inl ⟨_, _, hsteps.tail (step_eq_ok_iff.mp hstep)⟩
    · exact .inr ⟨before, u, behind ++ [t], n, is, fault, by simp, hsteps, hfault⟩

theorem read_of_refused (h : Steps s ts n is) (hfault : step n t = .error fault) (ending : Token)
    (us : List Token) : read ending s (ts ++ t :: us) = .error fault := by
  rw [read_of_steps h, read, hfault]
  rfl

/-- The declarations that are read are those of a run and of its end. -/
theorem read_eq_ok_iff : read ending s ts = .ok imports ↔
    ∃ n is d, Steps s ts n is ∧ close ending n = .ok d ∧ imports = is ++ d.toList := by
  constructor
  · intro h
    rcases steps_or_refused s ts with ⟨n, is, hsteps⟩ | ⟨before, t, behind, n, is, fault, rfl,
      hsteps, hfault⟩
    · have hread := read_of_steps hsteps ending []
      rw [List.append_nil, h] at hread
      obtain ⟨rest, hrest, he⟩ := map_eq_ok.mp hread.symm
      obtain ⟨d, hd, rfl⟩ := map_eq_ok.mp hrest
      exact ⟨n, is, d, hsteps, hd, he.symm⟩
    · rw [read_of_refused hsteps hfault] at h
      cases h
  · rintro ⟨n, is, d, hsteps, hd, rfl⟩
    have hread := read_of_steps hsteps ending []
    rw [List.append_nil, read, hd] at hread
    exact hread

end ContractLinker.Import

namespace ContractLinker.Program

open Token.Sequence (ofSource)

theorem read_of_parse {filename source : String} {p : Program} {seq : Token.Sequence}
    (hp : parse filename source = .ok p) (hseq : ofSource source = .ok seq) :
    Import.read seq.ending (.between []) seq.tokens = .ok p.imports := by
  obtain ⟨seq', imports, hseq', hread, rfl⟩ := parse_eq_ok.mp hp
  obtain rfl : seq = seq' := Except.ok.inj (hseq.symm.trans hseq')
  exact hread

end ContractLinker.Program
