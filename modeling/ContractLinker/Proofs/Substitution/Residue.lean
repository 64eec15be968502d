import ContractLinker.Proofs.Substitution.Order

/-!
# What substitution leaves

`not_infix_locations`: where every occurrence is replaced, none of the locations is left between
quotes. The literals bear no quotes, so an occurrence behind a substitution has been there before it
or holds a whole literal; neither a later location nor the same one can come back.
-/

namespace ContractLinker.Substitution

variable {every : Bool} {code location : String} {rows : List (String × Address)}

/-- Rows bring no location about that does not contain one of their literals. -/
theorem infix_of_infix_locations (h : ∀ row ∈ rows, ¬ Contains location row.2)
    (hin : quotedSpelling location.toList <:+: (locations every code rows).toList) :
    quotedSpelling location.toList <:+: code.toList := by
  induction rows generalizing code with
  | nil => exact hin
  | cons row rows ih =>
    obtain ⟨hrow, hrest⟩ := List.forall_mem_cons.mp h
    have hstep := ih hrest hin
    rw [toList_location] at hstep
    exact infix_of_infix_substitute every (quotedSpelling_ne_nil _) (quote_not_mem_literal row.2)
      (head?_quotedSpelling _) (getLast?_quotedSpelling _) (not_infix_quotedSpelling hrow) hstep

/-- If no location contains the literal of an address that is put in, none of the locations is left
between quotes once all their occurrences have been replaced. -/
theorem not_infix_locations (h : ∀ row ∈ rows, ∀ other ∈ rows, ¬ Contains row.1 other.2) :
    ∀ row ∈ rows, ¬ quotedSpelling row.1.toList <:+: (locations true code rows).toList := by
  induction rows generalizing code with
  | nil => exact fun row hrow => nomatch hrow
  | cons first rows ih =>
    intro row hrow
    rcases List.mem_cons.mp hrow with rfl | hrow
    · -- Its own substitution leaves none, and those behind it bring none about.
      intro hin
      have hself := infix_of_infix_locations
        (fun other hother => h row hrow other (List.mem_cons_of_mem _ hother)) hin
      rw [toList_location] at hself
      exact not_infix_substituteAll (quote_not_mem_literal row.2) (head?_quotedSpelling _)
        (getLast?_quotedSpelling _) (not_infix_quotedSpelling (h row hrow row hrow)) hself
    · refine ih (fun k hk other hother => ?_) row hrow
      exact h k (List.mem_cons_of_mem _ hk) other (List.mem_cons_of_mem _ hother)

/-- Locations that share quotes with each other and with themselves, one of them given twice. -/
theorem not_infix_locations_shared_quotes :
    let rows : List (String × Address) := [("B\"A", ⟨[2]⟩), ("A", ⟨[1]⟩), ("B", ⟨[]⟩), ("A", ⟨[3]⟩)]
    locations true "\"A\"A\"B\"A\"B\"" rows = "0x01A0x02B\"" ∧
      ∀ row ∈ rows, ¬ quotedSpelling row.1.toList <:+:
        (locations true "\"A\"A\"B\"A\"B\"" rows).toList :=
  ⟨by decide +kernel, not_infix_locations (by decide)⟩

end ContractLinker.Substitution
