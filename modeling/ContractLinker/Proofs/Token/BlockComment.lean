import ContractLinker.Proofs.Token.Refusal

/-!
# Nested block comments

`ofSource_blockComment`: the lexer counts how many comments are open and looks two characters ahead,
and what it skips is what the grammar of nested comments derives. In the grammar a comment is a row
of items between two marks, and an item is a comment or a character at which no mark begins.
-/

namespace ContractLinker.Lexeme

/-- Items of a block comment, one behind the other, in front of a text. -/
inductive Items : List Char → List Char → Prop
  | nil {behind : List Char} : Items [] behind
  | comment {inner s behind : List Char} : Items inner ('*' :: '/' :: s ++ behind) →
      Items s behind → Items ('/' :: '*' :: inner ++ '*' :: '/' :: s) behind
  | char {c : Char} {s behind : List Char} : ¬ ['/', '*'] <+: c :: s ++ behind →
      ¬ ['*', '/'] <+: c :: s ++ behind → Items s behind → Items (c :: s) behind

/-- A block comment in front of a text. -/
def IsBlockComment (comment behind : List Char) : Prop :=
  ∃ items, Items items ('*' :: '/' :: behind) ∧ comment = '/' :: '*' :: items ++ ['*', '/']

variable {s t rest behind : List Char}

-- ---------------------------------------------------------------------------
-- Items and the text of a comment
-- ---------------------------------------------------------------------------

theorem Items.commentText_append (h : Items s behind) (hfront : t <+: behind)
    (ht : CommentText t) : CommentText (s ++ t) := by
  induction h generalizing t with
  | nil => exact ht
  | @comment inner s behind _ _ ihinner ihs =>
    have hinner : CommentText (inner ++ ['*', '/']) :=
      ihinner (List.prefix_append ['*', '/'] (s ++ behind)) .close
    simpa using CommentText.nested hinner (ihs hfront ht)
  | @char c s behind hopen hclose _ ih =>
    have hwhole : c :: (s ++ t) <+: c :: s ++ behind :=
      (List.prefix_append_right_inj (c :: s)).mpr hfront
    exact .char (fun hmark => hopen (hmark.trans hwhole)) (fun hmark => hclose (hmark.trans hwhole))
      (ih hfront ht)

/-- The text of a comment is its items and a closing mark, whatever stands behind it. -/
theorem CommentText.exists_items (h : CommentText s) :
    ∃ items, s = items ++ ['*', '/'] ∧ ∀ behind, Items items ('*' :: '/' :: behind) := by
  induction h with
  | close => exact ⟨[], rfl, fun _ => .nil⟩
  | nested _ _ ihinner ihs =>
    obtain ⟨inner, rfl, hinner⟩ := ihinner
    obtain ⟨items, rfl, hitems⟩ := ihs
    exact ⟨'/' :: '*' :: inner ++ '*' :: '/' :: items, by simp,
      fun behind => .comment (hinner (items ++ '*' :: '/' :: behind)) (hitems behind)⟩
  | @char c s hopen hclose _ ih =>
    obtain ⟨items, rfl, hitems⟩ := ih
    -- A mark has two characters, and so many stand there before what is behind the comment.
    have hfront : ∀ {mark behind : List Char}, mark.length = 2 →
        mark <+: c :: items ++ '*' :: '/' :: behind → mark <+: c :: (items ++ ['*', '/']) := by
      intro mark behind hlength hmark
      refine List.prefix_of_prefix_length_le hmark ⟨behind, by simp⟩ ?_
      simp [hlength]
    exact ⟨c :: items, rfl, fun behind =>
      .char (fun hmark => hopen (hfront rfl hmark)) (fun hmark => hclose (hfront rfl hmark))
        (hitems behind)⟩

theorem isBlockComment_iff {comment : List Char} :
    IsBlockComment comment behind ↔ ∃ s, CommentText s ∧ comment = '/' :: '*' :: s := by
  constructor
  · rintro ⟨items, hitems, rfl⟩
    exact ⟨items ++ ['*', '/'], hitems.commentText_append (List.prefix_append _ behind) .close, rfl⟩
  · rintro ⟨s, hs, rfl⟩
    obtain ⟨items, rfl, hitems⟩ := hs.exists_items
    exact ⟨items, hitems behind, rfl⟩

theorem IsBlockComment.ne_nil {comment : List Char} (h : IsBlockComment comment behind) :
    comment ≠ [] := by
  obtain ⟨items, -, rfl⟩ := h
  simp

-- ---------------------------------------------------------------------------
-- What an opening mark begins
-- ---------------------------------------------------------------------------

theorem first_openingMark_eq_ok_iff {l : Lexeme} : first '/' ('*' :: rest) = .ok (l, behind) ↔
    ∃ s, l = .layout s ∧ IsBlockComment s behind ∧ '/' :: '*' :: rest = s ++ behind := by
  rw [first_slash]
  constructor
  · intro h
    rw [slash] at h
    split at h
    · next hbody =>
      cases h
      obtain ⟨htext, rfl⟩ := commentBody_eq_some_iff.mp hbody
      exact ⟨_, rfl, isBlockComment_iff.mpr ⟨_, htext, rfl⟩, rfl⟩
    · cases h
  · rintro ⟨s, rfl, hs, he⟩
    obtain ⟨body, htext, rfl⟩ := isBlockComment_iff.mp hs
    obtain rfl : rest = body ++ behind := by simpa using he
    rw [slash, commentBody_eq_some_iff.mpr ⟨htext, rfl⟩]

theorem first_openingMark_eq_error {r : Refusal} (h : first '/' ('*' :: rest) = .error r) :
    r = ⟨.openComment, []⟩ := by
  rw [first_slash, slash] at h
  split at h
  · cases h
  · exact (Except.error.inj h).symm

end ContractLinker.Lexeme

namespace ContractLinker.Token.Sequence

open Lexeme

theorem le_position_of_read_eq_error {p : Position} {s : List Char} {fault : Fault}
    (h : read p s = .error fault) : p ≤ fault.position := by
  obtain ⟨ls, rest, rfl, hrow, hrest⟩ := exists_isRowBefore s
  rw [read_append hrow] at h
  obtain rfl | ⟨c, more, refusal, rfl, hrefused⟩ := hrest
  · simp [read, Except.map] at h
  · rw [read_of_error hrefused] at h
    cases h
    exact (p.le_after _).trans (Position.le_after _ _)

/-- Where a lexeme can begin, a mark that opens a comment begins layout exactly if the grammar
derives a front of the text. That front is the only one, and reading goes on behind it. The source
is refused for the mark exactly if there is none. -/
theorem ofSource_blockComment {ls : List Lexeme} {rest : List Char}
    (h : IsRowBefore ('/' :: '*' :: rest) ls) :
    (∀ l behind, first '/' ('*' :: rest) = .ok (l, behind) ↔
      ∃ s, l = .layout s ∧ IsBlockComment s behind ∧ '/' :: '*' :: rest = s ++ behind) ∧
    (∀ s behind s' behind', IsBlockComment s behind → '/' :: '*' :: rest = s ++ behind →
      IsBlockComment s' behind' → '/' :: '*' :: rest = s' ++ behind' →
      s = s' ∧ behind = behind') ∧
    (∀ s behind, IsBlockComment s behind → '/' :: '*' :: rest = s ++ behind →
      ofSource (String.ofList (Lexeme.text ls ++ '/' :: '*' :: rest)) =
        (read (.behind (Lexeme.text ls ++ s)) behind).map (prepend (sequence .start ls).tokens)) ∧
    (ofSource (String.ofList (Lexeme.text ls ++ '/' :: '*' :: rest)) =
        .error ⟨.openComment, .behind (Lexeme.text ls)⟩ ↔
      ∀ s behind, IsBlockComment s behind → '/' :: '*' :: rest ≠ s ++ behind) := by
  have hfirst : ∀ {s behind}, IsBlockComment s behind → '/' :: '*' :: rest = s ++ behind →
      first '/' ('*' :: rest) = .ok (.layout s, behind) := fun hs he =>
    first_openingMark_eq_ok_iff.mpr ⟨_, rfl, hs, he⟩
  have hskipped : ∀ s behind, IsBlockComment s behind → '/' :: '*' :: rest = s ++ behind →
      ofSource (String.ofList (Lexeme.text ls ++ '/' :: '*' :: rest)) =
        (read (.behind (Lexeme.text ls ++ s)) behind).map
          (prepend (sequence .start ls).tokens) := by
    intro s behind hs he
    have hspelling : (Lexeme.layout s).spelling = s := rfl
    rw [ofSource_row h, read_of_ok (hfirst hs he), hspelling, Position.after_behind]
    cases read (.behind (Lexeme.text ls ++ s)) behind <;> rfl
  refine ⟨fun l behind => first_openingMark_eq_ok_iff, ?_, hskipped, ?_, ?_⟩
  · intro s behind s' behind' hs he hs' he'
    have hsame := (hfirst hs he).symm.trans (hfirst hs' he')
    cases hsame
    exact ⟨rfl, rfl⟩
  · intro hrefused s behind hs he
    -- A fault behind the comment stands further on than its opening mark.
    rw [hskipped s behind hs he] at hrefused
    have hle := le_position_of_read_eq_error (map_eq_error.mp hrefused)
    rw [← Position.after_behind] at hle
    exact absurd (Position.lt_after _ hs.ne_nil) (not_lt_of_ge hle)
  · intro hnone
    cases hread : first '/' ('*' :: rest) with
    | ok taken =>
      obtain ⟨l, behind⟩ := taken
      obtain ⟨s, -, hs, he⟩ := first_openingMark_eq_ok_iff.mp hread
      exact absurd he (hnone s behind hs)
    | error r =>
      rw [ofSource_row h, read_of_error hread, first_openingMark_eq_error hread]
      rfl

/-- Marks that touch each other, and an opening mark whose star cannot close it. -/
theorem ofSource_blockComment_touching :
    IsRowBefore "/*\n/**/*/b".toList [.token .identifier ['a']] ∧
    IsBlockComment "/*\n/**/*/".toList ['b'] ∧
    ofSource "a/*\n/**/*/b" =
      .ok ⟨[⟨.identifier, "a", ⟨1, 1⟩⟩, ⟨.identifier, "b", ⟨2, 7⟩⟩], ⟨2, 8⟩⟩ ∧
    IsRowBefore "/*/".toList [] ∧
    (∀ s behind, IsBlockComment s behind → "/*/".toList ≠ s ++ behind) ∧
    ofSource "/*/" = .error ⟨.openComment, ⟨1, 1⟩⟩ := by
  have hword : first 'a' "/*\n/**/*/b".toList =
      .ok (.token .identifier ['a'], "/*\n/**/*/b".toList) := by decide +kernel
  have hskipped : first '/' "*\n/**/*/b".toList =
      .ok (.layout "/*\n/**/*/".toList, ['b']) := by decide +kernel
  have hrefused : ofSource "/*/" = .error ⟨.openComment, ⟨1, 1⟩⟩ := by decide +kernel
  obtain ⟨hformed, hfits, -⟩ := first_eq_ok_iff.mp hword
  have hrow : IsRowBefore "/*\n/**/*/b".toList [.token .identifier ['a']] :=
    ⟨hformed, hfits, trivial⟩
  have hempty : IsRowBefore "/*/".toList [] := trivial
  obtain ⟨hfirst, -, hsource, -⟩ := ofSource_blockComment hrow
  obtain ⟨-, -, -, hnone⟩ := ofSource_blockComment hempty
  obtain ⟨_, hs, hcomment, he⟩ := (hfirst _ _).mp hskipped
  cases hs
  refine ⟨hrow, hcomment, ?_, hempty, hnone.mp hrefused, hrefused⟩
  refine (hsource _ _ hcomment he).trans ?_
  decide +kernel

end ContractLinker.Token.Sequence
