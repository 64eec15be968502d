import ContractLinker.Proofs.Registration
import ContractLinker.Proofs.Import.Reader
import ContractLinker.Proofs.Token.EndMarker

/-!
# Reading imports from a list of tokens

A reader that looks tokens up in the list, up to two of them ahead, may ask for one behind the end,
and a number may be text that is no address. `program_eq`: for the tokens of a source neither
happens, and what is read is what `Import.read` reads. `Program.parse_ends` puts this behind the
reading of the text, where no loop spins.
-/

namespace ContractLinker

namespace Import

namespace Cursor

/-- What comes of reading. There is nothing where a token behind the list is asked for, where text
is taken for an address that is none, and where the rounds run out. -/
abbrev Attempt (α : Type) := ExceptT Fault Option α

variable {α : Type}

def tokenAt (ts : List Token) (i : Nat) : Attempt Token := ExceptT.lift ts[i]?

def addressOf (t : Token) : Attempt Address := ExceptT.lift (Address.ofText? t.text)

@[simp] theorem tokenAt_zero_bind (t : Token) (ts : List Token) (f : Token → Attempt α) :
    (tokenAt (t :: ts) 0 >>= f) = f t := rfl

@[simp] theorem tokenAt_one_bind (t u : Token) (ts : List Token) (f : Token → Attempt α) :
    (tokenAt (t :: u :: ts) 1 >>= f) = f u := rfl

theorem addressOf_bind {t : Token} {a : Address} (h : Address.ofText? t.text = some a)
    (f : Address → Attempt α) : (addressOf t >>= f) = f a := by
  rw [addressOf, h]
  rfl

/-- The location in front. -/
def location (start : Token) (names : List String) (ts : List Token) :
    Attempt (Import × List Token) := do
  let t ← tokenAt ts 0
  match t.kind with
  | .string => return (declare start t names (.quoted t.text), ts.tail)
  | .hexadecimal => return (declare start t names (.address (← addressOf t)), ts.tail)
  | _ => throw ⟨.locationExpected, t⟩

/-- What stands behind a name: commas with further names, and then the location. -/
def clause (start : Token) : Nat → List String → List Token → Attempt (Import × List Token)
  | 0, _, _ => ExceptT.lift none
  | rounds + 1, names, ts => do
    let t ← tokenAt ts 0
    if t.kind = .comma then
      let name ← tokenAt ts 1
      if name.kind = .identifier then clause start rounds (names ++ [name.text]) ts.tail.tail
      else throw ⟨.nameExpected, name⟩
    else if t.isFrom then location start names ts.tail
    else throw ⟨.fromExpected, t⟩

/-- What stands behind the keyword of a declaration. The token behind a first name decides whether
the name is all of it. -/
def declaration (rounds : Nat) (start : Token) (ts : List Token) :
    Attempt (Import × List Token) := do
  let t ← tokenAt ts 0
  if t.kind = .identifier then
    let behind ← tokenAt ts 1
    if behind.kind = .comma ∨ behind.kind = .string ∨ behind.kind = .hexadecimal ∨
        behind.isFrom then
      clause start rounds [t.text] ts.tail
    else return (declareName start t, ts.tail)
  else location start [] ts

/-- The brackets that are open behind a token. -/
def bracketsBehind (brackets : List Token) (t : Token) : Attempt (List Token) :=
  match t.kind, brackets with
  | .opening _, _ => return t :: brackets
  | .closing _, [] => throw ⟨.unmatchedClosing, t⟩
  | .closing bracket, opener :: outer =>
    if opener.kind = .opening bracket then return outer else throw ⟨.mismatchedClosing opener, t⟩
  | _, _ => return brackets

def atEnd : List Token → Attempt (List Import)
  | [] => return []
  | opener :: _ => throw ⟨.unclosed, opener⟩

/-- The declarations up to the end of the file. -/
def program : Nat → List Token → List Token → Attempt (List Import)
  | 0, _, _ => ExceptT.lift none
  | rounds + 1, brackets, ts => do
    let t ← tokenAt ts 0
    if t.kind = .endOfFile then atEnd brackets
    else if t.kind = .importKeyword ∧ brackets = [] then
      let r ← declaration rounds t ts.tail
      return r.1 :: (← program rounds [] r.2)
    else program rounds (← bracketsBehind brackets t) ts.tail

/-- A token that a text may have in front of its end. -/
structure Inner (t : Token) : Prop where
  ne_endOfFile : t.kind ≠ .endOfFile
  exists_address : t.kind = .hexadecimal → ∃ a, Address.ofText? t.text = some a

/-- An attempt at a declaration gives what the reader gives from a state on. -/
inductive Agrees (ending : Token) (s : State) (ts : List Token) :
    Attempt (Import × List Token) → Prop
  | refused {fault : Fault} : read ending s ts = .error fault → Agrees ending s ts (throw fault)
  | declared {i : Import} {rest : List Token} : rest <:+ ts →
      read ending s ts = (read ending (.between []) rest).map (i :: ·) →
      Agrees ending s ts (pure (i, rest ++ [ending]))

variable {ending start t : Token} {s s' : State} {ts ts' : List Token} {names : List String}
  {rounds : Nat} {x : Attempt (Import × List Token)}

theorem Agrees.of_read_eq (h : Agrees ending s' ts' x) (hts : ts' <:+ ts)
    (hread : read ending s ts = read ending s' ts') : Agrees ending s ts x := by
  cases h with
  | refused h => exact .refused (hread.trans h)
  | declared hrest h => exact .declared (hrest.trans hts) (hread.trans h)

theorem agrees_location (hend : ending.kind = .endOfFile) (h : ∀ t ∈ ts, Inner t) :
    Agrees ending (.source start names) ts (location start names (ts ++ [ending])) := by
  cases ts with
  | nil =>
    rw [List.nil_append, location, tokenAt_zero_bind, hend]
    exact .refused rfl
  | cons t ts =>
    obtain ⟨ht, -⟩ := List.forall_mem_cons.mp h
    have hread : ∀ {location}, locationOf? t = some location →
        read ending (.source start names) (t :: ts) =
          (read ending (.between []) ts).map (declare start t names location :: ·) :=
      fun hloc => read_of_step_some (by rw [step, stepLocation, hloc])
    rw [List.cons_append, location, tokenAt_zero_bind, List.tail_cons]
    cases hk : t.kind with
    | string => exact .declared (List.suffix_cons t ts) (hread (by rw [locationOf?, hk]))
    | hexadecimal =>
      obtain ⟨a, ha⟩ := ht.exists_address hk
      dsimp only
      rw [addressOf_bind ha]
      exact .declared (List.suffix_cons t ts) (hread (by rw [locationOf?, hk, ha]; rfl))
    | _ => exact .refused (read_of_step_error (by rw [step, stepLocation, locationOf?, hk]))

theorem isFrom_of_endOfFile (hend : ending.kind = .endOfFile) : ¬ ending.isFrom = true := by
  simp [Token.isFrom, hend]

theorem agrees_clause (hend : ending.kind = .endOfFile) (h : ∀ t ∈ ts, Inner t)
    (hrounds : ts.length < rounds) :
    Agrees ending (.names start names) ts (clause start rounds names (ts ++ [ending])) := by
  induction rounds generalizing names ts with
  | zero => cases hrounds
  | succ rounds ih =>
    cases ts with
    | nil =>
      rw [List.nil_append, clause, tokenAt_zero_bind, if_neg (by simp [hend]),
        if_neg (isFrom_of_endOfFile hend)]
      exact .refused rfl
    | cons t ts =>
      obtain ⟨-, hts⟩ := List.forall_mem_cons.mp h
      rw [List.cons_append, clause, tokenAt_zero_bind, List.tail_cons]
      by_cases hcomma : t.kind = .comma
      · have hread : read ending (.names start names) (t :: ts) =
            read ending (.comma start names) ts :=
          read_of_step_none (by rw [step, if_pos hcomma])
        rw [if_pos hcomma]
        cases ts with
        | nil =>
          rw [List.nil_append, tokenAt_one_bind, if_neg (by simp [hend])]
          exact .refused hread
        | cons u ts =>
          rw [List.cons_append, tokenAt_one_bind, List.tail_cons]
          by_cases hname : u.kind = .identifier
          · rw [if_pos hname]
            have hlength : ts.length < rounds := by
              simp only [List.length_cons] at hrounds
              omega
            exact (ih (List.forall_mem_cons.mp hts).2 hlength).of_read_eq
              ((List.suffix_cons u ts).trans (List.suffix_cons t _))
              (hread.trans (read_of_step_none (by rw [step, if_pos hname])))
          · rw [if_neg hname]
            exact .refused (hread.trans (read_of_step_error (by rw [step, if_neg hname])))
      · rw [if_neg hcomma]
        by_cases hfrom : t.isFrom = true
        · rw [if_pos hfrom]
          exact (agrees_location hend hts).of_read_eq (List.suffix_cons t ts)
            (read_of_step_none (by rw [step, if_neg hcomma, if_pos hfrom]))
        · rw [if_neg hfrom]
          exact .refused (read_of_step_error (by rw [step, if_neg hcomma, if_neg hfrom]))

/-- Behind a first name, the reader goes on as behind a later one where the name is not all. -/
theorem read_name_eq {first : Token} (h : t.kind = .comma ∨ t.kind = .string ∨
    t.kind = .hexadecimal ∨ t.isFrom) : read ending (.name start first) (t :: ts) =
      read ending (.names start [first.text]) (t :: ts) := by
  have hstep : step (.name start first) t = step (.names start [first.text]) t := by
    rw [step, step]
    split
    · rfl
    split
    · rfl
    next hcomma hfrom =>
      rw [if_pos (by simpa [hcomma, hfrom] using h)]
  rw [read, read, hstep]

/-- Otherwise the declaration is read, and the token behind it stands between declarations. -/
theorem read_name_eq_between {first : Token} (h : ¬ (t.kind = .comma ∨ t.kind = .string ∨
    t.kind = .hexadecimal ∨ t.isFrom)) : read ending (.name start first) (t :: ts) =
      (read ending (.between []) (t :: ts)).map (declareName start first :: ·) := by
  simp only [not_or] at h
  obtain ⟨hcomma, hstring, hhex, hfrom⟩ := h
  have hstep : step (.name start first) t =
      (stepBetween [] t).map (·, some (declareName start first)) := by
    rw [step, if_neg hcomma, if_neg hfrom, if_neg (by simp [hstring, hhex])]
  rw [read, read, hstep, step]
  cases stepBetween [] t with
  | error fault => rfl
  | ok n =>
    simp only [Except.map]
    cases read ending n ts <;> rfl

theorem agrees_declaration (hend : ending.kind = .endOfFile) (h : ∀ t ∈ ts, Inner t)
    (hrounds : ts.length < rounds) :
    Agrees ending (.keyword start) ts (declaration rounds start (ts ++ [ending])) := by
  cases ts with
  | nil =>
    rw [List.nil_append, declaration, tokenAt_zero_bind, if_neg (by simp [hend])]
    have hlocation : Agrees ending (.source start []) [] (location start [] ([] ++ [ending])) :=
      agrees_location hend h
    exact hlocation.of_read_eq List.suffix_rfl rfl
  | cons t ts =>
    obtain ⟨-, hts⟩ := List.forall_mem_cons.mp h
    rw [List.cons_append, declaration, tokenAt_zero_bind]
    by_cases hname : t.kind = .identifier
    · have hread : read ending (.keyword start) (t :: ts) = read ending (.name start t) ts :=
        read_of_step_none (by rw [step, if_pos hname])
      rw [if_pos hname, List.tail_cons]
      cases ts with
      | nil =>
        rw [List.nil_append, tokenAt_one_bind,
          if_neg (by simp [hend, isFrom_of_endOfFile hend])]
        exact .declared List.nil_suffix hread
      | cons u ts =>
        rw [List.cons_append, tokenAt_one_bind]
        split
        · next hmore =>
          exact (agrees_clause hend hts (Nat.lt_of_succ_lt hrounds)).of_read_eq
            (List.suffix_cons t _) (hread.trans (read_name_eq hmore))
        · next hall =>
          exact .declared (List.suffix_cons t _) (hread.trans (read_name_eq_between hall))
    · rw [if_neg hname]
      have hlocation : Agrees ending (.source start []) (t :: ts)
          (location start [] (t :: ts ++ [ending])) := agrees_location hend h
      exact hlocation.of_read_eq List.suffix_rfl (by rw [read, read, step, if_neg hname]; rfl)

theorem bracketsBehind_eq {brackets : List Token}
    (h : ¬ (t.kind = .importKeyword ∧ brackets = [])) :
    (∃ behind, stepBetween brackets t = .ok (.between behind) ∧
      bracketsBehind brackets t = pure behind) ∨
    ∃ fault, stepBetween brackets t = .error fault ∧ bracketsBehind brackets t = throw fault := by
  unfold stepBetween bracketsBehind
  cases hk : t.kind with
  | importKeyword => exact .inl ⟨brackets, by rw [if_neg fun hb => h ⟨hk, hb⟩], rfl⟩
  | closing bracket =>
    cases brackets with
    | nil => exact .inr ⟨_, rfl, rfl⟩
    | cons opener outer =>
      by_cases ho : opener.kind = .opening bracket
      · exact .inl ⟨outer, by simp [ho], by simp [ho]⟩
      · exact .inr ⟨⟨.mismatchedClosing opener, t⟩, by simp [ho], by simp [ho]⟩
  | _ => exact .inl ⟨_, rfl, rfl⟩

/-- Reading from the list never asks for a token behind it and finds an address in each number. -/
theorem program_eq (hend : ending.kind = .endOfFile) (h : ∀ t ∈ ts, Inner t)
    (hrounds : ts.length < rounds) (brackets : List Token) :
    (program rounds brackets (ts ++ [ending])).run =
      some (read ending (.between brackets) ts) := by
  induction rounds generalizing brackets ts with
  | zero => cases hrounds
  | succ rounds ih =>
    cases ts with
    | nil =>
      rw [List.nil_append, program, tokenAt_zero_bind, if_pos hend]
      cases brackets <;> rfl
    | cons t ts =>
      obtain ⟨ht, hts⟩ := List.forall_mem_cons.mp h
      have hlength : ts.length < rounds := by simpa using hrounds
      rw [List.cons_append, program, tokenAt_zero_bind, List.tail_cons, if_neg ht.ne_endOfFile]
      split
      · next himport =>
        obtain ⟨hk, rfl⟩ := himport
        have hread : read ending (.between []) (t :: ts) = read ending (.keyword t) ts :=
          read_of_step_none (by rw [step, stepBetween, hk]; rfl)
        have hagrees : Agrees ending (.keyword t) ts (declaration rounds t (ts ++ [ending])) :=
          agrees_declaration hend hts hlength
        -- A declaration leaves an end of the tokens, for which the rounds are enough again.
        generalize declaration rounds t (ts ++ [ending]) = x at hagrees
        cases hagrees with
        | refused hfault =>
          rw [hread, hfault]
          rfl
        | @declared i rest hrest hdeclared =>
          have hinner : ∀ u ∈ rest, Inner u := fun u hu => hts u (hrest.subset hu)
          rw [hread, hdeclared, pure_bind, ExceptT.run_bind,
            ih hinner (hrest.length_le.trans_lt hlength) []]
          cases read ending (.between []) rest <;> rfl
      · next hnot =>
        rcases bracketsBehind_eq hnot with ⟨behind, hstep, he⟩ | ⟨fault, hstep, he⟩
        · rw [he, pure_bind, ih hts hlength, read_of_step_none (by rw [step, hstep]; rfl)]
        · rw [he, read_of_step_error (by rw [step, hstep]; rfl)]
          rfl

/-- Without the end of the file there is no token behind the name. -/
example : (program 3 [] [⟨.importKeyword, "import", .start⟩, ⟨.identifier, "A", .start⟩]).run =
    none := rfl

end Cursor

end Import

namespace Program

open Token.Sequence (ofSource)

theorem inner_of_mem_tokens {source : String} {seq : Token.Sequence} (h : ofSource source = .ok seq)
    {t : Token} (ht : t ∈ seq.tokens) : Import.Cursor.Inner t where
  ne_endOfFile := (Token.Sequence.formed_of_mem_tokens h ht).ne_endOfFile
  exists_address := Token.Sequence.exists_address h ht

/-- Reading a text with an end marker, and then imports from the list of its tokens. -/
def attempt (filename source : String) : Option (Except Failure Program) :=
  (Lexeme.Marked.read (source.length + 1) .start source.toList).bind fun
    | .error fault => some (.error (.lexical filename fault))
    | .ok seq => (Import.Cursor.program seq.toList.length [] seq.toList).run.map fun
      | .error fault => .error (.grammar filename fault)
      | .ok imports => .ok ⟨imports, spanOf seq, filename⟩

theorem attempt_eq (filename source : String) :
    attempt filename source = some (parse filename source) := by
  have hread : Lexeme.Marked.read (source.length + 1) .start source.toList =
      some (ofSource source) :=
    Lexeme.Marked.read_eq (Nat.lt_succ_of_le String.length_toList.le)
  rw [attempt, hread, Option.bind_some, parse]
  cases hseq : ofSource source with
  | error fault => rfl
  | ok seq =>
    have hprogram : (Import.Cursor.program seq.toList.length [] seq.toList).run =
        some (Import.read seq.ending (.between []) seq.tokens) :=
      Import.Cursor.program_eq rfl (fun _ => inner_of_mem_tokens hseq)
        (by simp [Token.Sequence.toList]) []
    simp only [ofTokens, hprogram, Option.map_some]
    cases Import.read seq.ending (.between []) seq.tokens <;> rfl

/-- Whatever the source, reading it ends, in one of three ways: no loop runs out of rounds, no token
behind the last one is asked for, and every hexadecimal number is an address. -/
theorem parse_ends (filename source : String) :
    attempt filename source = some (parse filename source) ∧
    ((∃ p, parse filename source = .ok p) ∨
      (∃ fault, ofSource source = .error fault ∧
        parse filename source = .error (.lexical filename fault)) ∨
      ∃ seq fault, ofSource source = .ok seq ∧ ofTokens filename seq = .error fault ∧
        parse filename source = .error (.grammar filename fault)) ∧
    ∀ seq, ofSource source = .ok seq → ∀ t ∈ seq.tokens, t.kind = .hexadecimal →
      ∃ a, Address.ofText? t.text = some a := by
  refine ⟨attempt_eq filename source, ?_, fun seq hseq t => Token.Sequence.exists_address hseq⟩
  cases hparse : parse filename source with
  | ok p => exact .inl ⟨p, rfl⟩
  | error f =>
    rcases parse_eq_error_iff.mp hparse with ⟨fault, hfault, rfl⟩ | ⟨seq, fault, hseq, hfault, rfl⟩
    · exact .inr (.inl ⟨fault, hfault, rfl⟩)
    · exact .inr (.inr ⟨seq, fault, hseq, hfault, rfl⟩)

end Program

end ContractLinker
