import ContractLinker.Diagnostic.Snippet
import ContractLinker.Proofs.Import.Prefix
import ContractLinker.Proofs.Import.Span
import ContractLinker.Proofs.Path
import ContractLinker.Proofs.Token.Refusal

/-!
# The place that a snippet shows

A failure counts the lines of a source by its newlines, a snippet by all characters that break a
line. `report_shows`: up to the first character on which the two disagree, a snippet shows the line
of the failure, and its carets stand under the columns. `report_form_feed` is a source behind whose
form feed they part.
-/

namespace ContractLinker

-- ---------------------------------------------------------------------------
-- Two ways to count lines
-- ---------------------------------------------------------------------------

namespace Text

theorem lines_append_newline {s : List Char} (h : ∀ c ∈ s, breaksLine c = false)
    (rest : List Char) : lines (s ++ '\n' :: rest) = s :: lines rest := by
  induction s with
  | nil => rfl
  | cons c s ih =>
    obtain ⟨hc, hs⟩ := List.forall_mem_cons.mp h
    simp [lines, hc, ih hs]

theorem lines_of_unbroken {s : List Char} (h : ∀ c ∈ s, breaksLine c = false) (hne : s ≠ []) :
    lines s = [s] := by
  induction s with
  | nil => exact absurd rfl hne
  | cons c s ih =>
    obtain ⟨hc, hs⟩ := List.forall_mem_cons.mp h
    cases s with
    | nil => simp [lines, hc]
    | cons d s =>
      rw [lines, if_neg (by simp [hc]), ih hs (by simp)]

/-- A line that is shown is the one between newlines, if nothing else has broken a line so far. -/
theorem getElem?_split_of_lines {s l : List Char} {n : Nat} (h : (lines s)[n]? = some l)
    (hplain : ∀ piece ∈ (split '\n' s).take (n + 1), ∀ c ∈ piece, breaksLine c = false) :
    (split '\n' s)[n]? = some l := by
  by_cases hmem : '\n' ∈ s
  · obtain ⟨line, rest, rfl, hline⟩ := List.eq_append_cons_of_mem hmem
    rw [split_append_cons, split_of_not_mem hline] at hplain ⊢
    rw [lines_append_newline (hplain line (by simp))] at h
    cases n with
    | zero => simpa using h
    | succ n =>
      refine getElem?_split_of_lines (s := rest) h fun piece hpiece => hplain piece ?_
      simpa using .inr hpiece
  · rw [split_of_not_mem hmem] at hplain ⊢
    have hne : s ≠ [] := by
      rintro rfl
      cases h
    rwa [lines_of_unbroken (hplain s (by simp)) hne] at h
termination_by n

end Text

namespace Diagnostic

variable {d : Diagnostic} {filename text : String} {f : Failure} {env : Environment}

-- ---------------------------------------------------------------------------
-- Failures of a source
-- ---------------------------------------------------------------------------

/-- What reading a text leads to: that it is refused, or that an import of it leads nowhere. -/
inductive Arises (filename text : String) : Failure → Prop
  | refused {f : Failure} : Program.parse filename text = .error f → Arises filename text f
  | unresolved {p : Program} {i : Import} {u : UnresolvedImport} :
      Program.parse filename text = .ok p → i ∈ p.imports → u.filename = some filename →
      u.span = some i.span → Arises filename text (.unresolved u)

/-- A diagnostic of a file at a position, with an end behind it or without one. -/
structure Locates (d : Diagnostic) (filename : String) (p : Position) : Prop where
  filename : d.filename = some filename
  line : d.line = some (p.line : Int)
  column : d.column = some (p.column : Int)
  finish : (d.endLine = none ∧ d.endColumn = none) ∨
    ∃ q : Position, p < q ∧ d.endLine = some (q.line : Int) ∧ d.endColumn = some (q.column : Int)

theorem exists_behind_of_mem {seq : Token.Sequence} (hseq : Token.Sequence.ofSource text = .ok seq)
    {t : Token} (ht : t ∈ seq.toList) : ∃ front, t.position = .behind front := by
  obtain ⟨ls, hrow, -, rfl⟩ := Token.Sequence.ofSource_eq_ok_iff.mp hseq
  have hcuts : Cuts [] (Lexeme.text ls) (Lexeme.sequence .start ls).toList :=
    Token.Sequence.cuts_sequence hrow []
  by_cases hk : t.kind = .endOfFile
  · obtain ⟨ts, he, hts⟩ := hcuts.eq_concat
    rw [he] at ht
    rcases List.mem_append.mp ht with ht | ht
    · exact absurd hk (hts t ht)
    · obtain rfl := List.mem_singleton.mp ht
      exact ⟨_, rfl⟩
  · obtain ⟨u, v, -, hposition⟩ := hcuts.exists_append ht hk
    exact ⟨_, hposition⟩

theorem mem_of_refused {seq : Token.Sequence} {fault : Import.Fault}
    (h : Program.ofTokens filename seq = .error fault) : fault.token ∈ seq.toList := by
  have hread := map_eq_error.mp h
  rcases Import.read_eq_error hread with ⟨before, behind, he, -⟩ | ⟨⟨htoken, -⟩, -⟩ |
    ⟨-, -, before, inner, b, he, -⟩
  · exact List.mem_append_left _ (by simp [he])
  · exact htoken ▸ List.mem_append_right _ (by simp)
  · exact List.mem_append_left _ (by simp [he])

theorem locates_of_arises (h : Arises filename text f) (hd : ofFailure? f = some d) :
    ∃ front, d.Locates filename (.behind front) := by
  cases h with
  | refused hp =>
    rcases Program.parse_eq_error_iff.mp hp with ⟨fault, hfault, rfl⟩ |
      ⟨seq, fault, hseq, hfault, rfl⟩
    · obtain ⟨ls, c, more, refusal, -, -, -, rfl⟩ := Token.Sequence.exists_refusal hfault
      cases hd
      exact ⟨_, rfl, rfl, rfl, .inl ⟨rfl, rfl⟩⟩
    · obtain ⟨front, hfront⟩ := exists_behind_of_mem hseq (mem_of_refused hfault)
      cases hd
      exact ⟨front, rfl, by rw [← hfront]; rfl, by rw [← hfront]; rfl, .inl ⟨rfl, rfl⟩⟩
  | @unresolved p i u hp hi hname hspan =>
    obtain ⟨seq, imports, hseq, -⟩ := Program.parse_eq_ok.mp hp
    have hlaid := Import.laid_of_read (Program.read_of_parse hp hseq)
    obtain ⟨before, ts, behind, he, hts⟩ := hlaid.exists_spells hi
    obtain ⟨ls, -, hcovers, hkeyword, -⟩ := hts.exists_piece hseq he
    have hlt : i.span.start < i.span.finish := by
      refine hcovers.start_lt_finish fun hnil => ?_
      rw [hnil, List.prefix_nil] at hkeyword
      simp at hkeyword
    obtain ⟨front, -, -, hstart, -⟩ := hcovers
    simp only [ofFailure?, hname, hspan, Option.some.injEq] at hd
    subst hd
    refine ⟨front, rfl, ?_, ?_, .inr ⟨i.span.finish, hstart ▸ hlt, rfl, rfl⟩⟩
    · simp [unlinked, placeOf, hstart]
    · simp [unlinked, placeOf, hstart]

-- ---------------------------------------------------------------------------
-- Snippets
-- ---------------------------------------------------------------------------

theorem report_cases (hname : d.filename = some filename) (hread : env.read filename = .ok text) :
    d.report env = [d.header env.workingDirectory] ∨
      d.report env = d.header env.workingDirectory :: d.snippet text.toList := by
  by_cases hempty : filename = ""
  · exact .inl (by simp [report, sourceText?, hname, hempty])
  · refine .inr ?_
    have hsource : d.sourceText? env = some text.toList := by
      simp [sourceText?, hname, hread, Except.toOption]
    rw [report, hsource]
    rfl

/-- The gutters of the two lines are equally wide. -/
theorem length_gutter (line : Int) :
    (padLeft (gutterWidth line) (toString line) ++ " | ").length =
      (spaces (gutterWidth line) ++ " | ").length := by
  have hwidth : (toString line).toList.length ≤ gutterWidth line := le_max_right _ _
  simp only [padLeft, spaces, String.length_append, String.length_ofList, List.length_replicate,
    List.length_leftpad, Nat.max_eq_left hwidth]

/-- The carets begin at the column. Without an end there is one of them; up to an end on the same
line, one for each column in front of it. -/
theorem markedColumns_eq {p : Position} (h : d.Locates filename p) (hp : 1 ≤ p.column)
    (width : Nat) : ∃ behind : Int,
      d.markedColumns p.line p.column width = ((p.column : Int), behind) ∧
      (d.endLine = none → behind = p.column) ∧
      (d.endLine = some (p.line : Int) → d.endColumn = some behind ∧ p.column < behind) := by
  have hfirst : max 1 (p.column : Int) = p.column := by omega
  rcases h.finish with ⟨hline, hcolumn⟩ | ⟨q, hlt, hline, hcolumn⟩
  · exact ⟨p.column, by simp [markedColumns, hline, hfirst], by simp [hline], by simp [hline]⟩
  · by_cases hsame : q.line = p.line
    · have hbehind : p.column < q.column := by
        rcases Position.lt_iff.mp hlt with hless | ⟨-, hless⟩
        · omega
        · exact hless
      have hmax : max (p.column : Int) q.column = q.column := by omega
      refine ⟨q.column, ?_, by simp [hline], fun _ => ⟨hcolumn, by omega⟩⟩
      simp [markedColumns, hline, hcolumn, hsame, hfirst, hmax]
    · have hother : (q.line : Int) ≠ p.line := by omega
      refine ⟨width + 1, ?_, by simp [hline], fun h => ?_⟩
      · simp [markedColumns, hline, hcolumn, hother, hfirst]
      · exact absurd (Option.some.inj (hline.symm.trans h)) hother

/-- A snippet shows nothing, or a line of the text and carets that begin below the column. -/
theorem snippet_cases {p : Position} (h : d.Locates filename p) (hp : 1 ≤ p.column)
    (s : List Char) : d.snippet s = [] ∨
      ∃ (source : List Char) (gutter blank : String) (marks : Nat),
        (Text.lines s)[p.line - 1]? = some source ∧ 1 ≤ p.line ∧ gutter.length = blank.length ∧
        d.snippet s = [gutter ++ String.ofList source,
          blank ++ spaces (p.column - 1) ++ String.ofList (List.replicate marks '^')] ∧
        1 ≤ marks ∧ (d.endLine = none → marks = 1) ∧
        (d.endLine = some (p.line : Int) → d.endColumn = some (p.column + marks : Int)) := by
  cases hsource : lineAt? s p.line with
  | none => exact .inl (by simp [snippet, h.line, hsource])
  | some source =>
    obtain ⟨hline, hshown⟩ := Option.ite_none_right_eq_some.mp hsource
    obtain ⟨behind, hmarked, hone, hend⟩ := markedColumns_eq h hp source.length
    refine .inr ⟨source, _, _, (max 1 (behind - p.column)).toNat, ?_, by omega,
      length_gutter p.line, ?_, by omega, fun hnone => ?_, fun hsame => ?_⟩
    · rw [← hshown]
      congr
      omega
    · have hspaces : ((p.column : Int) - 1).toNat = p.column - 1 := by omega
      simp only [snippet, h.line, hsource, h.column, hmarked, hspaces, carets, String.append_assoc]
    · rw [hone hnone]
      simp
    · obtain ⟨hcolumn, hlt⟩ := hend hsame
      rw [hcolumn]
      congr
      omega

/-- A report of a failure of a source is its header, or below it a line and carets. These stand
from the failure's column on, to before its end if that is on the same line. The line is the one
that the failure counts by newlines, unless a character other than these breaks a line up to its
end. -/
theorem report_shows (hread : env.read filename = .ok text) (hf : Arises filename text f)
    (hd : ofFailure? f = some d) :
    ∃ line column : Nat, d.line = some (line : Int) ∧ d.column = some (column : Int) ∧
      (d.report env = [d.header env.workingDirectory] ∨
        ∃ (source : List Char) (gutter blank : String) (marks : Nat),
          d.report env = [d.header env.workingDirectory, gutter ++ String.ofList source,
            blank ++ spaces (column - 1) ++ String.ofList (List.replicate marks '^')] ∧
          gutter.length = blank.length ∧ 1 ≤ marks ∧ (d.endLine = none → marks = 1) ∧
          (d.endLine = some (line : Int) → d.endColumn = some (column + marks : Int)) ∧
          ((∀ piece ∈ (Text.split '\n' text.toList).take line, ∀ c ∈ piece,
              Text.breaksLine c = false) →
            (Text.split '\n' text.toList)[line - 1]? = some source)) := by
  obtain ⟨front, h⟩ := locates_of_arises hf hd
  have hcolumn : 1 ≤ (Position.behind front).column := Nat.le_add_right 1 _
  refine ⟨_, _, h.line, h.column, ?_⟩
  rcases report_cases h.filename hread with hreport | hreport
  · exact .inl hreport
  rcases snippet_cases h hcolumn text.toList with hnone |
    ⟨source, gutter, blank, marks, hsource, hline, hwidth, hsnippet, hmarks, hone, hend⟩
  · exact .inl (by rw [hreport, hnone])
  · refine .inr ⟨source, gutter, blank, marks, by rw [hreport, hsnippet], hwidth, hmarks, hone,
      hend, fun hplain => Text.getElem?_split_of_lines hsource ?_⟩
    rwa [Nat.sub_add_cancel hline]

/-- An import that leads nowhere, on the second line. -/
theorem report_shows_import :
    ∃ d source gutter blank,
      ofFailure? (.unresolved ⟨"C", "B", "B.cdc", some "C.cdc", some ⟨⟨2, 1⟩, ⟨2, 11⟩⟩⟩) = some d ∧
      d.report ⟨"/w", fun _ => .ok "//a\nimport \"B\"", none⟩ =
        [d.header "/w", gutter ++ String.ofList source, blank ++ "^^^^^^^^^^"] ∧
      gutter.length = blank.length ∧ source = "import \"B\"".toList := by
  obtain ⟨p, hp, himports⟩ : ∃ p, Program.parse "C.cdc" "//a\nimport \"B\"" = .ok p ∧
      p.imports = [⟨[], .quoted "B", ⟨⟨2, 1⟩, ⟨2, 11⟩⟩⟩] := map_eq_ok.mp (by decide +kernel)
  have harises : Arises "C.cdc" "//a\nimport \"B\""
      (.unresolved ⟨"C", "B", "B.cdc", some "C.cdc", some ⟨⟨2, 1⟩, ⟨2, 11⟩⟩⟩) :=
    .unresolved hp (by rw [himports]; exact List.mem_singleton_self _) rfl rfl
  have hread : Environment.read ⟨"/w", fun _ => .ok "//a\nimport \"B\"", none⟩ "C.cdc" =
      .ok "//a\nimport \"B\"" := rfl
  obtain ⟨line, column, hline, hcolumn, hreport⟩ := report_shows hread harises rfl
  have hline : (2 : Int) = line := Option.some.inj hline
  have hcolumn : (1 : Int) = column := Option.some.inj hcolumn
  obtain rfl : line = 2 := by omega
  obtain rfl : column = 1 := by omega
  rcases hreport with hheader | ⟨source, gutter, blank, marks, hreport, hwidth, -, -, hend, hplain⟩
  · exact absurd (congrArg List.length hheader) (by decide +kernel)
  · have hmarks : marks = 10 := by
      have hcolumns := hend rfl
      simp only [unlinked, placeOf, Option.map_some, Option.some.injEq] at hcolumns
      omega
    subst hmarks
    have hall : ((Text.split '\n' "//a\nimport \"B\"".toList).take 2).all
        (·.all fun c => Text.breaksLine c = false) = true := by decide +kernel
    have hsource := hplain (by simpa using hall)
    exact ⟨_, source, gutter, blank, rfl, by simpa [spaces] using hreport, hwidth,
      (Option.some.inj hsource).symm⟩

/-- A form feed in a comment makes the snippet show the empty line behind it for the second one. -/
theorem report_form_feed : ∃ f d, Arises "C.cdc" "//\x0c\n$" f ∧ ofFailure? f = some d ∧
    d.line = some 2 ∧ (Text.split '\n' "//\x0c\n$".toList)[1]? = some ['$'] ∧
    d.report ⟨"/w", fun _ => .ok "//\x0c\n$", none⟩ =
      [d.header "/w", "    2 | ", "      | ^"] := by
  have hrefused : Program.parse "C.cdc" "//\x0c\n$" =
      .error (.lexical "C.cdc" ⟨.unexpected '$', ⟨2, 1⟩⟩) := by decide +kernel
  exact ⟨_, _, .refused hrefused, rfl, rfl, by decide +kernel, by decide +kernel⟩

end Diagnostic

end ContractLinker
