import ContractLinker.Token.Lexeme

/-!
# Block comments

`CommentText` says what stands from behind the opening mark of a block comment to behind its
closing one, without counting the comments that are open. `commentBody_eq_some_iff`: the lexer reads
exactly these texts.
-/

namespace ContractLinker.Lexeme

/-- A block comment, from behind its opening mark. -/
inductive CommentText : List Char → Prop
  | close : CommentText ['*', '/']
  | nested {inner s : List Char} : CommentText inner → CommentText s →
      CommentText ('/' :: '*' :: inner ++ s)
  /-- A character at which no mark stands. -/
  | char {c : Char} {s : List Char} : ¬ ['/', '*'] <+: c :: s → ¬ ['*', '/'] <+: c :: s →
      CommentText s → CommentText (c :: s)

theorem CommentText.ne_nil {s : List Char} (h : CommentText s) : s ≠ [] := by
  cases h <;> simp

/-- The ends of a comment and of `depth` further ones around it. -/
inductive Closes : Nat → List Char → Prop
  | innermost {s : List Char} : CommentText s → Closes 0 s
  | around {depth : Nat} {s t : List Char} : CommentText s → Closes depth t →
      Closes (depth + 1) (s ++ t)

theorem Closes.nested {depth : Nat} {s : List Char} (h : Closes (depth + 1) s) :
    Closes depth ('/' :: '*' :: s) := by
  cases h with
  | around hs ht =>
    cases ht with
    | innermost ht => exact .innermost (.nested hs ht)
    | around ht hu =>
      have hclose := Closes.around (.nested hs ht) hu
      simpa using hclose

theorem Closes.char {depth : Nat} {c : Char} {s : List Char} (hopen : ¬ ['/', '*'] <+: c :: s)
    (hclose : ¬ ['*', '/'] <+: c :: s) (h : Closes depth s) : Closes depth (c :: s) := by
  cases h with
  | innermost hs => exact .innermost (.char hopen hclose hs)
  | @around depth s t hs ht =>
    have hprefix : c :: s <+: c :: (s ++ t) := List.prefix_append (c :: s) t
    exact .around (.char (fun h => hopen (h.trans hprefix)) (fun h => hclose (h.trans hprefix)) hs)
      ht

theorem closes_commentBody {depth : Nat} {s body behind : List Char}
    (h : commentBody depth s = some (body, behind)) : Closes depth body := by
  fun_induction commentBody depth s generalizing body behind with
  | case1 => cases h
  | case2 depth rest ih =>
    obtain ⟨r, hr, he⟩ := Option.map_eq_some_iff.mp h
    cases he
    exact (ih hr).nested
  | case3 => cases h; exact .innermost .close
  | case4 depth rest ih =>
    obtain ⟨r, hr, he⟩ := Option.map_eq_some_iff.mp h
    cases he
    exact .around .close (ih hr)
  | case5 depth c rest hopen hzero hsucc ih =>
    obtain ⟨r, hr, he⟩ := Option.map_eq_some_iff.mp h
    cases he
    -- The body begins as the rest does, so a mark at its front is one at the front of the rest.
    have hprefix : c :: r.1 <+: c :: rest := ⟨r.2, by simp [append_commentBody hr]⟩
    refine (ih hr).char (fun hmark => ?_) (fun hmark => ?_)
    · obtain ⟨t, ht⟩ := hmark.trans hprefix
      cases ht
      exact hopen t rfl rfl
    · obtain ⟨t, ht⟩ := hmark.trans hprefix
      cases ht
      cases depth with
      | zero => exact hzero t rfl rfl rfl
      | succ depth => exact hsucc depth t rfl rfl rfl

/-- The text of a comment ends one open comment, and goes on with those around it. -/
theorem commentBody_of_text {s : List Char} (h : CommentText s) (t : List Char) :
    commentBody 0 (s ++ t) = some (s, t) ∧
      ∀ depth, commentBody (depth + 1) (s ++ t) =
        (commentBody depth t).map fun r => (s ++ r.1, r.2) := by
  induction h generalizing t with
  | close => exact ⟨by simp [commentBody], fun depth => by simp [commentBody]⟩
  | @nested inner s _ _ ihinner ihs =>
    have hinner := fun depth => (ihinner (s ++ t)).2 depth
    refine ⟨by simp [commentBody, hinner, (ihs t).1], fun depth => ?_⟩
    simp [commentBody, hinner, (ihs t).2, Function.comp_def]
  | @char c s hopen hclose hs ih =>
    have hprefix : ∀ {d : Char} {tail : List Char}, s ++ t = d :: tail → [d] <+: s := by
      intro d tail he
      obtain ⟨e, s, rfl⟩ := List.exists_cons_of_ne_nil hs.ne_nil
      cases he
      exact ⟨s, rfl⟩
    have hstep : ∀ depth, commentBody depth (c :: (s ++ t)) =
        (commentBody depth (s ++ t)).map fun r => (c :: r.1, r.2) := by
      intro depth
      refine commentBody.eq_5 depth c (s ++ t) ?_ ?_ ?_
      · rintro tail rfl he
        exact hopen (by simpa using hprefix he)
      · rintro tail - rfl he
        exact hclose (by simpa using hprefix he)
      · rintro n tail - rfl he
        exact hclose (by simpa using hprefix he)
    refine ⟨by simp [hstep, (ih t).1], fun depth => ?_⟩
    simp [hstep, (ih t).2, Function.comp_def]

theorem commentBody_eq_some_iff {s body behind : List Char} :
    commentBody 0 s = some (body, behind) ↔ CommentText body ∧ s = body ++ behind := by
  constructor
  · intro h
    refine ⟨?_, (append_commentBody h).symm⟩
    cases closes_commentBody h with
    | innermost hbody => exact hbody
  · rintro ⟨hbody, rfl⟩
    exact (commentBody_of_text hbody behind).1

end ContractLinker.Lexeme
