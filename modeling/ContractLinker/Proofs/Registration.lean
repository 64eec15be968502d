import ContractLinker.Environment
import ContractLinker.Proofs.Linking

/-!
# Registering contracts

A registration passes a row of checks, in an order that `Refused` spells out, and appends one
contract: `registration` is the row without its log, wherever the code comes from, and
`registration_eq_error_iff` and `registration_eq_ok` say how it ends.
-/

namespace ContractLinker

/-- A contract has what it was registered with. -/
structure Contract.MadeFrom (name path target : String) (source : Except ReadFault String)
    (c : Contract) : Prop where
  name_eq : c.name = name
  path_eq : c.path = Path.clean path
  ofText?_target : Address.ofText? target = some c.target
  source_eq : source = .ok c.code
  parse_eq : Program.parse path c.code = .ok c.program

/-- Why a working set does not take a contract. Each reason presupposes that those above it do not
apply. -/
inductive WorkingSet.Refused (set : WorkingSet) (name path target : String)
    (source : Except ReadFault String) : Failure → Prop
  | closed : set.frozen = true → Refused set name path target source (.closed name)
  | registeredTwice {owner : Linked} : set.frozen = false →
      set.get? (Path.clean path) = some owner →
      Refused set name path target source (.registeredTwice (Path.clean path) owner.name)
  | unreadable {fault : ReadFault} : set.frozen = false → set.get? (Path.clean path) = none →
      source = .error fault → Refused set name path target source (.unreadable path fault.reason)
  | malformedAddress {code : String} : set.frozen = false → set.get? (Path.clean path) = none →
      source = .ok code → Address.ofText? target = none →
      Refused set name path target source (.malformedAddress target)
  | lexical {code : String} {address : Address} {fault : Lexeme.Fault} : set.frozen = false →
      set.get? (Path.clean path) = none → source = .ok code →
      Address.ofText? target = some address → Token.Sequence.ofSource code = .error fault →
      Refused set name path target source (.lexical path fault)
  | grammar {code : String} {address : Address} {seq : Token.Sequence} {fault : Import.Fault} :
      set.frozen = false → set.get? (Path.clean path) = none → source = .ok code →
      Address.ofText? target = some address → Token.Sequence.ofSource code = .ok seq →
      Program.ofTokens path seq = .error fault →
      Refused set name path target source (.grammar path fault)

namespace WorkingSet

variable {s : WorkingSet} {name path : String} {f : Failure}

theorem checkOpen_eq_ok_iff :
    s.checkOpen name path = .ok () ↔ s.frozen = false ∧ s.get? path = none := by
  unfold checkOpen
  cases s.frozen <;> cases s.get? path <;> simp

theorem checkOpen_eq_error_iff :
    s.checkOpen name path = .error f ↔ (s.frozen = true ∧ f = .closed name) ∨
      s.frozen = false ∧ ∃ owner, s.get? path = some owner ∧
        f = .registeredTwice path owner.name := by
  unfold checkOpen
  cases s.frozen <;> cases s.get? path <;> simp [eq_comm]

theorem add_of_checkOpen {c : Linked} (h : s.checkOpen c.name c.path = .ok ()) :
    s.add c = .ok { s with contracts := s.contracts ++ [c] } := by
  rw [add, h]

end WorkingSet

theorem Program.parse_eq_error_iff {filename source : String} {f : Failure} :
    parse filename source = .error f ↔
      (∃ fault, Token.Sequence.ofSource source = .error fault ∧ f = .lexical filename fault) ∨
      ∃ seq fault, Token.Sequence.ofSource source = .ok seq ∧
        ofTokens filename seq = .error fault ∧ f = .grammar filename fault := by
  unfold parse
  cases Token.Sequence.ofSource source with
  | error fault => simp [eq_comm]
  | ok seq => cases h : ofTokens filename seq <;> simp [h, eq_comm]

/-- The text of a source, as a registration asks for it. -/
def sourceText (path : String) : Except ReadFault String → Except Failure String
  | .ok text => .ok text
  | .error fault => .error (.unreadable path fault.reason)

theorem sourceText_eq_ok_iff {path text : String} {source : Except ReadFault String} :
    sourceText path source = .ok text ↔ source = .ok text := by
  cases source <;> simp [sourceText]

theorem sourceText_eq_error_iff {path : String} {source : Except ReadFault String} {f : Failure} :
    sourceText path source = .error f ↔
      ∃ fault, source = .error fault ∧ f = .unreadable path fault.reason := by
  cases source <;> simp [sourceText, eq_comm]

namespace Batch

variable {b b' : Batch} {c : Linked} {name path target : String}
  {source : Except ReadFault String} {f : Failure}

/-- The outcome of a registration, whatever it gets its code from. -/
def registration (b : Batch) (name path target : String) (source : Except ReadFault String) :
    Except Failure (Batch × Linked) := do
  b.set.checkOpen name (Path.clean path)
  let code ← sourceText path source
  let address ← Address.parse target
  let program ← Program.parse path code
  let c := Contract.unlinked ⟨b.set.size, name, Path.clean path, address, code, program⟩
  return ({ b with set := { b.set with contracts := b.set.contracts ++ [c] } }, c)

theorem result_addCode (b : Batch) (name path code target : String) :
    (b.addCode name path code target).result = b.registration name path target (.ok code) := by
  simp only [addCode, registration, sourceText, Logged.result_bind, Logged.result_ofExcept]
  cases hopen : b.set.checkOpen name (Path.clean path) with
  | error f => rfl
  | ok _ =>
    cases Address.parse target with
    | error f => rfl
    | ok address =>
      cases hp : Program.parse path code with
      | error f => simp [bind, Except.bind, hp]
      | ok program =>
        have hadd := WorkingSet.add_of_checkOpen (s := b.set)
          (c := Contract.unlinked ⟨b.set.size, name, Path.clean path, address, code, program⟩) hopen
        simp [bind, Except.bind, hp, hadd, pure, Except.pure]

theorem result_addSource (b : Batch) (env : Environment) (name path target : String) :
    (b.addSource env.readSource name path target).result =
      b.registration name path target (env.read path) := by
  simp only [addSource, Logged.result_bind, Logged.result_ofExcept, result_addCode, registration,
    Environment.readSource, sourceText]
  cases b.set.checkOpen name (Path.clean path) with
  | error f => rfl
  | ok _ => cases env.read path <;> rfl

theorem registration_eq_error_iff :
    b.registration name path target source = .error f ↔
      b.set.Refused name path target source f := by
  constructor
  · intro h
    rcases bind_eq_error.mp h with h | ⟨⟨⟩, hopen, h⟩
    · rcases WorkingSet.checkOpen_eq_error_iff.mp h with ⟨hf, rfl⟩ | ⟨hf, owner, ho, rfl⟩
      · exact .closed hf
      · exact .registeredTwice hf ho
    obtain ⟨hf, hp⟩ := WorkingSet.checkOpen_eq_ok_iff.mp hopen
    rcases bind_eq_error.mp h with h | ⟨code, hcode, h⟩
    · obtain ⟨fault, rfl, rfl⟩ := sourceText_eq_error_iff.mp h
      exact .unreadable hf hp rfl
    have hs := sourceText_eq_ok_iff.mp hcode
    rcases bind_eq_error.mp h with h | ⟨address, haddress, h⟩
    · obtain ⟨ha, rfl⟩ := parse_eq_error_iff.mp h
      exact .malformedAddress hf hp hs ha
    have ha := parse_eq_ok_iff.mp haddress
    rcases bind_eq_error.mp h with h | ⟨program, -, h⟩
    · rcases Program.parse_eq_error_iff.mp h with ⟨fault, hl, rfl⟩ | ⟨seq, fault, hl, hg, rfl⟩
      · exact .lexical hf hp hs ha hl
      · exact .grammar hf hp hs ha hl hg
    · cases h
  · intro h
    -- The reasons say which way each check goes.
    cases h <;> simp [registration, WorkingSet.checkOpen, sourceText, Address.parse, Program.parse,
      bind, Except.bind, *]

/-- A registration that succeeds appends an unlinked contract at a new path. -/
theorem registration_eq_ok (h : b.registration name path target source = .ok (b', c)) :
    b.set.frozen = false ∧ b.set.get? (Path.clean path) = none ∧ c = c.toContract.unlinked ∧
      c.id = b.set.size ∧ c.toContract.MadeFrom name path target source ∧
      b' = { b with set := { b.set with contracts := b.set.contracts ++ [c] } } := by
  obtain ⟨⟨⟩, hopen, h⟩ := bind_eq_ok.mp h
  obtain ⟨code, hcode, h⟩ := bind_eq_ok.mp h
  obtain ⟨address, haddress, h⟩ := bind_eq_ok.mp h
  obtain ⟨program, hprogram, h⟩ := bind_eq_ok.mp h
  cases h
  obtain ⟨hfrozen, hnone⟩ := WorkingSet.checkOpen_eq_ok_iff.mp hopen
  exact ⟨hfrozen, hnone, rfl, rfl,
    ⟨rfl, rfl, parse_eq_ok_iff.mp haddress, sourceText_eq_ok_iff.mp hcode, hprogram⟩, rfl⟩

end Batch

end ContractLinker
