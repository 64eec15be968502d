import ContractLinker.Substitution
import Mathlib.Data.List.Infix
import Mathlib.Data.List.TakeWhile

/-!
# Occurrences under substitution

A pattern between quotes and something without quotes put in its place: no occurrence of another
pattern can begin or end within what was put in. `exists_of_substituteAll_eq` leads each
occurrence behind a substitution back to one before it, unless it holds what was put in as a whole.
-/

namespace ContractLinker.Substitution

-- ---------------------------------------------------------------------------
-- One pattern
-- ---------------------------------------------------------------------------

theorem substituteAll_pattern {pattern new s : List Char} (h : pattern ≠ []) :
    substituteAll pattern new (pattern ++ s) = new ++ substituteAll pattern new s := by
  obtain ⟨c, p, rfl⟩ := List.exists_cons_of_ne_nil h
  have hp : (c :: p).isPrefixOf (c :: (p ++ s)) = true :=
    List.isPrefixOf_iff_prefix.mpr ⟨s, rfl⟩
  rw [List.cons_append, substituteAll, if_pos hp]
  simp

theorem substituteAll_cons {pattern new s : List Char} {c : Char} (h : ¬ pattern <+: c :: s) :
    substituteAll pattern new (c :: s) = c :: substituteAll pattern new s := by
  rw [substituteAll, if_neg fun hp => h (List.isPrefixOf_iff_prefix.mp hp)]

/-- Occurrences are taken from the left. -/
@[elab_as_elim]
theorem occurrences {pattern : List Char} (h : pattern ≠ []) {motive : List Char → Prop}
    (nil : motive []) (put : ∀ s, motive s → motive (pattern ++ s))
    (keep : ∀ c s, ¬ pattern <+: c :: s → motive s → motive (c :: s)) (s : List Char) :
    motive s := by
  induction hn : s.length using Nat.strong_induction_on generalizing s with
  | _ n ih =>
    cases s with
    | nil => exact nil
    | cons c s =>
      by_cases hp : pattern <+: c :: s
      · obtain ⟨t, ht⟩ := hp
        have hlt : t.length < n := by
          have hlen := congrArg List.length ht
          have hpos := List.length_pos_iff.mpr h
          simp only [List.length_append] at hlen
          omega
        rw [← ht]
        exact put t (ih t.length hlt t rfl)
      · exact keep c s hp (ih s.length (by rw [← hn]; simp) s rfl)

theorem substituteAll_of_not_infix {pattern new s : List Char} (h : ¬ pattern <:+: s) :
    substituteAll pattern new s = s := by
  induction s with
  | nil => rw [substituteAll]
  | cons c s ih =>
    rw [substituteAll_cons fun hp => h hp.isInfix,
      ih fun hs => h (hs.trans (List.suffix_cons c s).isInfix)]

/-- The pattern begins in one text and ends in the next. -/
def Straddles (pattern s t : List Char) : Prop :=
  ∃ p q, p ≠ [] ∧ q ≠ [] ∧ p ++ q = pattern ∧ p <:+ s ∧ q <+: t

theorem Straddles.mono {pattern s s' t t' : List Char} (h : Straddles pattern s t) (hs : s <:+ s')
    (ht : t <+: t') : Straddles pattern s' t' := by
  obtain ⟨p, q, hp, hq, he, hps, hqt⟩ := h
  exact ⟨p, q, hp, hq, he, hps.trans hs, hqt.trans ht⟩

instance decidableStraddles (pattern s t : List Char) : Decidable (Straddles pattern s t) :=
  decidable_of_iff (∃ n ∈ List.range pattern.length,
      0 < n ∧ pattern.take n <:+ s ∧ pattern.drop n <+: t) <| by
    constructor
    · rintro ⟨n, hn, hpos, hs, ht⟩
      have hlt : n < pattern.length := List.mem_range.mp hn
      refine ⟨_, _, ?_, ?_, List.take_append_drop n pattern, hs, ht⟩
      · rw [Ne, List.take_eq_nil_iff]
        rintro (h | rfl)
        · omega
        · cases hlt
      · rwa [Ne, List.drop_eq_nil_iff, not_le]
    · rintro ⟨p, q, hp, hq, rfl, hs, ht⟩
      have hpos := List.length_pos_iff.mpr hp
      have hpos' := List.length_pos_iff.mpr hq
      refine ⟨p.length, ?_, hpos, by simpa using hs, by simpa using ht⟩
      rw [List.mem_range, List.length_append]
      omega

theorem prefix_append_cases {p s t : List Char} (h : p <+: s ++ t) :
    p <+: s ∨ ∃ q, p = s ++ q ∧ q <+: t := by
  rcases List.prefix_or_prefix_of_prefix h (List.prefix_append s t) with hp | ⟨q, rfl⟩
  · exact .inl hp
  · exact .inr ⟨q, rfl, (List.prefix_append_right_inj s).mp h⟩

theorem prefix_of_not_straddles {pattern s t : List Char} (h : ¬ Straddles pattern s t)
    (hs : s ≠ []) (hp : pattern <+: s ++ t) : pattern <+: s := by
  rcases prefix_append_cases hp with hp | ⟨q, rfl, hq⟩
  · exact hp
  · cases q with
    | nil => simp
    | cons d q => exact absurd ⟨s, d :: q, hs, by simp, rfl, List.suffix_rfl, hq⟩ h

theorem substituteAll_append {pattern new s t : List Char} (hne : pattern ≠ [])
    (h : ¬ Straddles pattern s t) :
    substituteAll pattern new (s ++ t) =
      substituteAll pattern new s ++ substituteAll pattern new t := by
  induction s using occurrences hne with
  | nil => rw [substituteAll]; rfl
  | put s ih =>
    rw [List.append_assoc, substituteAll_pattern hne, substituteAll_pattern hne,
      ih fun hs => h (hs.mono (List.suffix_append _ _) List.prefix_rfl), List.append_assoc]
  | keep c s hp ih =>
    have hp' : ¬ pattern <+: c :: (s ++ t) := fun hp' =>
      hp (prefix_of_not_straddles h (by simp) hp')
    rw [List.cons_append, substituteAll_cons hp', substituteAll_cons hp,
      ih fun hs => h (hs.mono (List.suffix_cons _ _) List.prefix_rfl), List.cons_append]

theorem substituteFirst_eq {pattern new s : List Char} (hne : pattern ≠ [])
    (h : ∀ u v u' v', s = u ++ pattern ++ v → s = u' ++ pattern ++ v' → u = u') :
    substituteFirst pattern new s = substituteAll pattern new s := by
  induction s using occurrences hne with
  | nil => rw [substituteAll]; rfl
  | put s _ =>
    have hs : ¬ pattern <:+: s := by
      rintro ⟨u, v, rfl⟩
      have hsame := h [] (u ++ pattern ++ v) (pattern ++ u) v (by simp) (by simp)
      simp [hne] at hsame
    rw [substituteAll_pattern hne, substituteAll_of_not_infix hs]
    obtain ⟨c, p, rfl⟩ := List.exists_cons_of_ne_nil hne
    have hp : (c :: p).isPrefixOf (c :: (p ++ s)) = true := List.isPrefixOf_iff_prefix.mpr ⟨s, rfl⟩
    rw [List.cons_append, substituteFirst, if_pos hp]
    simp
  | keep c s hp ih =>
    rw [substituteFirst, if_neg fun hp' => hp (List.isPrefixOf_iff_prefix.mp hp'),
      substituteAll_cons hp, ih]
    intro u v u' v' hu hu'
    exact List.cons.inj (h (c :: u) v (c :: u') v' (by simp [hu]) (by simp [← hu'])) |>.2

-- ---------------------------------------------------------------------------
-- Either way of substituting
-- ---------------------------------------------------------------------------

/-- Substitution at every occurrence or at the first one only. -/
def substitute : Bool → List Char → List Char → List Char → List Char
  | true => substituteAll
  | false => substituteFirst

variable {every : Bool} {pattern new other s t : List Char}

@[simp] theorem substitute_nil : substitute every pattern new [] = [] := by
  cases every with
  | true => rw [substitute, substituteAll]
  | false => rfl

theorem substitute_pattern (h : pattern ≠ []) : substitute every pattern new (pattern ++ s) =
    new ++ if every then substitute every pattern new s else s := by
  cases every with
  | true => exact substituteAll_pattern h
  | false =>
    obtain ⟨c, p, rfl⟩ := List.exists_cons_of_ne_nil h
    have hp : (c :: p).isPrefixOf (c :: (p ++ s)) = true := List.isPrefixOf_iff_prefix.mpr ⟨s, rfl⟩
    simp [substitute, substituteFirst, hp]

theorem substitute_cons {c : Char} (h : ¬ pattern <+: c :: s) :
    substitute every pattern new (c :: s) = c :: substitute every pattern new s := by
  cases every with
  | true => exact substituteAll_cons h
  | false =>
    rw [substitute, substituteFirst, if_neg fun hp => h (List.isPrefixOf_iff_prefix.mp hp)]

theorem prefix_of_prefix_substitute (every : Bool) {q : List Char} (hne : pattern ≠ [])
    (hnew : '"' ∉ new) (hq : ∀ c ∈ q.getLast?, c = '"') (hfree : ¬ new <:+: q)
    (h : q <+: substitute every pattern new s) : q <+: s := by
  induction s using occurrences hne generalizing q with
  | nil => simpa using h
  | put s _ =>
    rw [substitute_pattern hne] at h
    rcases prefix_append_cases h with h | ⟨r, rfl, -⟩
    · cases hlast : q.getLast? with
      | none => rw [List.getLast?_eq_none_iff.mp hlast]; exact List.nil_prefix
      | some c =>
        have hmem := h.subset (List.mem_of_getLast? hlast)
        rw [hq c hlast] at hmem
        exact absurd hmem hnew
    · exact absurd (List.prefix_append _ _).isInfix hfree
  | keep c s hp ih =>
    rw [substitute_cons hp] at h
    cases q with
    | nil => exact List.nil_prefix
    | cons d q =>
      obtain ⟨rfl, hrest⟩ := List.cons_prefix_cons.mp h
      refine List.cons_prefix_cons.mpr ⟨rfl, ih ?_ ?_ hrest⟩
      · intro e he
        cases q with
        | nil => cases he
        | cons f q => exact hq e (by rwa [List.getLast?_cons_cons])
      · exact fun hs => hfree (hs.trans (List.suffix_cons d q).isInfix)

/-- What begins with a quote is not found where something without quotes stands. -/
theorem infix_of_infix_append (hnew : '"' ∉ new) (hhead : other.head? = some '"')
    (h : other <:+: new ++ s) : other <:+: s := by
  induction new with
  | nil => exact h
  | cons c new ih =>
    rcases List.infix_cons_iff.mp h with h | h
    · cases other with
      | nil => cases hhead
      | cons d other =>
        cases hhead
        exact absurd (List.cons_prefix_cons.mp h).1 (by simpa using List.ne_of_not_mem_cons hnew)
    · exact ih (fun hmem => hnew (List.mem_cons_of_mem c hmem)) h

theorem infix_of_infix_substitute (every : Bool) (hne : pattern ≠ []) (hnew : '"' ∉ new)
    (hhead : other.head? = some '"') (hlast : other.getLast? = some '"') (hfree : ¬ new <:+: other)
    (h : other <:+: substitute every pattern new s) : other <:+: s := by
  induction s using occurrences hne with
  | nil => simpa using h
  | put s ih =>
    rw [substitute_pattern hne] at h
    have hrest := infix_of_infix_append hnew hhead h
    refine List.IsInfix.trans ?_ (List.suffix_append pattern s).isInfix
    cases every with
    | true => exact ih (by simpa using hrest)
    | false => simpa using hrest
  | keep c s hp ih =>
    have hstep := h
    rw [substitute_cons hp] at hstep
    rcases List.infix_cons_iff.mp hstep with hprefix | hin
    · rw [← substitute_cons hp] at hprefix
      have hquote : ∀ d ∈ other.getLast?, d = '"' := fun d hd =>
        (Option.some.inj (hlast.symm.trans hd)).symm
      exact (prefix_of_prefix_substitute every hne hnew hquote hfree hprefix).isInfix
    · exact (ih hin).trans (List.suffix_cons c s).isInfix

/-- A pattern between quotes does not outlast its own substitution. -/
theorem not_infix_substituteAll (hnew : '"' ∉ new) (hhead : pattern.head? = some '"')
    (hlast : pattern.getLast? = some '"') (hfree : ¬ new <:+: pattern) :
    ¬ pattern <:+: substituteAll pattern new s := by
  have hne : pattern ≠ [] := by
    rintro rfl
    cases hhead
  induction s using occurrences hne with
  | nil =>
    rw [substituteAll, List.infix_nil]
    exact hne
  | put s ih =>
    rw [substituteAll_pattern hne]
    exact fun hin => ih (infix_of_infix_append hnew hhead hin)
  | keep c s hp ih =>
    intro hin
    have hstep := hin
    rw [substituteAll_cons hp] at hstep
    rcases List.infix_cons_iff.mp hstep with hprefix | hrest
    · rw [← substituteAll_cons hp] at hprefix
      have hquote : ∀ d ∈ pattern.getLast?, d = '"' := fun d hd =>
        (Option.some.inj (hlast.symm.trans hd)).symm
      exact hp (prefix_of_prefix_substitute true hne hnew hquote hfree hprefix)
    · exact ih hrest

-- ---------------------------------------------------------------------------
-- Two patterns
-- ---------------------------------------------------------------------------

theorem eq_of_not_infix_substituteAll {pattern new s : List Char} (hne : pattern ≠ [])
    (h : ¬ new <:+: substituteAll pattern new s) : substituteAll pattern new s = s := by
  induction s using occurrences hne with
  | nil => rw [substituteAll]
  | put s _ =>
    rw [substituteAll_pattern hne] at h
    exact absurd (List.prefix_append _ _).isInfix h
  | keep c s hp ih =>
    rw [substituteAll_cons hp] at h ⊢
    rw [ih fun hs => h (hs.trans (List.suffix_cons c _).isInfix)]

theorem suffix_of_suffix_substituteAll {pattern new p s : List Char} (hne : pattern ≠ [])
    (hnew : '"' ∉ new) (hp : ∀ c ∈ p.head?, c = '"') (hfree : ¬ new <:+: p)
    (h : p <:+ substituteAll pattern new s) : p <:+ s := by
  induction s using occurrences hne with
  | nil => rwa [substituteAll] at h
  | put s ih =>
    rw [substituteAll_pattern hne] at h
    obtain ⟨r, hr⟩ := h
    rcases List.append_eq_append_iff.mp hr with ⟨w, rfl, rfl⟩ | ⟨w, rfl, hw⟩
    · cases w with
      | nil => exact (ih List.suffix_rfl).trans (List.suffix_append _ _)
      | cons d w =>
        rw [hp d rfl] at hnew
        simp at hnew
    · exact (ih ⟨w, hw.symm⟩).trans (List.suffix_append _ _)
  | keep c s hc ih =>
    rw [substituteAll_cons hc] at h
    rcases List.suffix_cons_iff.mp h with rfl | h
    · have hs : ¬ new <:+: substituteAll pattern new s := fun hin =>
        hfree (hin.trans (List.suffix_cons c _).isInfix)
      rw [eq_of_not_infix_substituteAll hne hs]
    · exact (ih h).trans (List.suffix_cons c s)

/-- Occurrences of another pattern come from occurrences before the substitution. -/
theorem exists_of_substituteAll_eq {pattern new other u v s : List Char} (hne : pattern ≠ [])
    (hnew : '"' ∉ new) (hhead : other.head? = some '"') (hlast : other.getLast? = some '"')
    (hfree : ¬ new <:+: other) (h : substituteAll pattern new s = u ++ other ++ v) :
    ∃ u₀ v₀, s = u₀ ++ other ++ v₀ ∧ substituteAll pattern new u₀ = u := by
  have hother : other ≠ [] := by
    rintro rfl
    cases hhead
  induction s using occurrences hne generalizing u with
  | nil =>
    rw [substituteAll] at h
    simp [hother] at h
  | put s ih =>
    rw [substituteAll_pattern hne, List.append_assoc] at h
    rcases List.append_eq_append_iff.mp h with ⟨w, rfl, hw⟩ | ⟨w, rfl, hw⟩
    · obtain ⟨u₀, v₀, rfl, rfl⟩ := ih (by simpa using hw)
      exact ⟨pattern ++ u₀, v₀, by simp, substituteAll_pattern hne⟩
    · cases w with
      | nil =>
        obtain ⟨u₀, v₀, rfl, hu⟩ := ih (u := []) (by simpa using hw.symm)
        exact ⟨pattern ++ u₀, v₀, by simp, by rw [substituteAll_pattern hne, hu]; simp⟩
      | cons d w =>
        obtain ⟨e, more, rfl⟩ := List.exists_cons_of_ne_nil hother
        cases hhead
        rw [← (List.cons.inj hw).1] at hnew
        simp at hnew
  | keep c s hc ih =>
    cases u with
    | nil =>
      have hp : other <+: substituteAll pattern new (c :: s) := by
        rw [h, List.nil_append]
        exact List.prefix_append _ _
      obtain ⟨v₀, hv₀⟩ := prefix_of_prefix_substitute true hne hnew
        (fun d hd => by rw [hlast] at hd; exact (Option.some.inj hd).symm) hfree hp
      exact ⟨[], v₀, hv₀.symm, by rw [substituteAll]⟩
    | cons d u =>
      rw [substituteAll_cons hc] at h
      obtain ⟨rfl, hrest⟩ := List.cons.inj h
      obtain ⟨u₀, v₀, rfl, rfl⟩ := ih hrest
      refine ⟨c :: u₀, v₀, rfl, substituteAll_cons fun hp => hc (hp.trans ?_)⟩
      exact ⟨other ++ v₀, by simp⟩

end ContractLinker.Substitution
