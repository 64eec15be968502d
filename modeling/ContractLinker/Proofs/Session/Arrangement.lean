import ContractLinker.Proofs.Preparation.Renumbering
import ContractLinker.Proofs.Session.Registration

/-!
# Arrangements of registrations

Contracts that are registered in another order get other numbers, and so do those that come behind
one more. `preparation_of_perm`: the order of registration decides neither how a preparation ends
nor how contracts are linked. `preparation_of_insertion`: one more contract that nobody imports
leaves the order of the others and their links as they were.
-/

namespace ContractLinker

-- ---------------------------------------------------------------------------
-- Numbers by place
-- ---------------------------------------------------------------------------

namespace Contract

/-- What a contract is apart from its number. -/
def unnumbered : Contract → Contract := renumber fun _ => 0

/-- Makes room for one more number. -/
def shift (place : Nat) (i : Int) : Int := if i < place then i else i + 1

theorem shift_injective (place : Nat) : (shift place).Injective := by
  intro i j h
  unfold shift at h
  split at h <;> split at h <;> omega

theorem renumber_eq_of_id {f : Int → Int} {c d : Contract} (h : c.unnumbered = d.unnumbered)
    (hid : f c.id = d.id) : c.renumber f = d := by
  obtain ⟨i, name, path, target, code, program⟩ := d
  simp only [unnumbered, renumber, mk.injEq] at h ⊢
  exact ⟨hid, h.2⟩

theorem id_getElem {cs : List Contract}
    (hids : cs.map (·.id) = (List.range cs.length).map Int.ofNat) {i : Nat} (hi : i < cs.length) :
    cs[i].id = i := by
  have hid := List.getElem_of_eq hids (i := i) (by rwa [List.length_map])
  rw [List.getElem_map, List.getElem_map, List.getElem_range] at hid
  exact hid

/-- A contract in between moves the numbers of those behind it. -/
theorem map_renumber_shift {cs front back : List Contract} {n : Contract}
    (hids : cs.map (·.id) = (List.range cs.length).map Int.ofNat)
    (hids' : (front ++ n :: back).map (·.id) =
      (List.range (front ++ n :: back).length).map Int.ofNat)
    (h : cs.map unnumbered = (front ++ back).map unnumbered) :
    cs.map (renumber (shift front.length)) = front ++ back := by
  have hlength : cs.length = (front ++ back).length := by simpa using congrArg List.length h
  refine List.ext_getElem (by simpa using hlength) fun i hi hi' => ?_
  have hcs : i < cs.length := by simpa using hi
  have hsame := List.getElem_of_eq h (i := i) (by rwa [List.length_map])
  rw [List.getElem_map, List.getElem_map] at hsame
  rw [List.getElem_map]
  refine renumber_eq_of_id hsame ?_
  rw [id_getElem hids, shift]
  rw [List.length_append] at hi'
  by_cases hfront : i < front.length
  · have hid := id_getElem hids' (i := i) (by simp; omega)
    rw [List.getElem_append_left hfront] at hid ⊢
    rw [if_pos (by omega), hid]
  · have hid := id_getElem hids' (i := i + 1) (by simp; omega)
    rw [List.getElem_append_right (by omega)] at hid ⊢
    simp only [Nat.sub_add_comm (Nat.le_of_not_lt hfront), List.getElem_cons_succ] at hid
    rw [if_neg (by omega), hid]
    rfl

end Contract

namespace Session

variable {options : Options} {aliases : AliasTable} {s : Session} {e : Event} {c : Contract}
  {history front back : List Event} {cs : List Contract}

-- ---------------------------------------------------------------------------
-- Histories that register
-- ---------------------------------------------------------------------------

/-- A history registers contracts, one with each event, at paths of their own. The numbers that
they get are left open. -/
structure Registering (history : List Event) (cs : List Contract) : Prop where
  makes : List.Forall₂ Event.Makes history cs
  paths : (cs.map (·.path)).Nodup

/-- What the first preparation behind a history comes to. -/
def preparation (options : Options) (aliases : AliasTable) (history : List Event) :
    Except Failure (List Linked) :=
  let s := after options ⟨{}, aliases⟩ history
  (s.batch.prepare options s.aliases).2.result

/-- A contract at a new path joins the working set. -/
theorem answer_of_makes (options : Options) (hc : e.Makes c)
    (hfrozen : s.batch.set.frozen = false) (hnew : c.path ∉ s.batch.set.registered.map (·.path)) :
    (s.answer options e).1 = { s with batch := { s.batch with set := { s.batch.set with
      contracts := s.batch.set.contracts ++
        [(c.renumber fun _ => s.batch.set.size).unlinked] } } } := by
  obtain ⟨name, path, target, source, hregisters, hmade⟩ := hc
  obtain ⟨added, hadded, hstep⟩ := hregisters.step_eq options s
  have hget : s.batch.set.get? (Path.clean path) = none := by
    refine Option.eq_none_iff_forall_ne_some.mpr fun owner howner => hnew ?_
    obtain ⟨hmem, hpath⟩ := WorkingSet.contractAt?_eq_some
      (show s.batch.set.contractAt? (Path.clean path) = some owner.toContract by
        rw [WorkingSet.contractAt?, howner, Option.map_some])
    exact hmade.path_eq ▸ hpath ▸ List.mem_map_of_mem hmem
  have hopen : s.batch.set.checkOpen name (Path.clean path) = .ok () :=
    WorkingSet.checkOpen_eq_ok_iff.mpr ⟨hfrozen, hget⟩
  have hsource : sourceText path source = .ok c.code := sourceText_eq_ok_iff.mpr hmade.source_eq
  have haddress := parse_eq_ok_iff.mpr hmade.ofText?_target
  simp only [Batch.registration, hopen, hsource, haddress, hmade.parse_eq, bind, Except.bind, pure,
    Except.pure] at hadded
  rw [answer, hstep, register_of_ok hadded, ← hmade.name_eq, ← hmade.path_eq]
  rfl

theorem after_of_makes (options : Options) (h : List.Forall₂ Event.Makes history cs)
    (hfrozen : s.batch.set.frozen = false)
    (hpaths : ((s.batch.set.registered ++ cs).map (·.path)).Nodup) :
    (s.after options history).aliases = s.aliases ∧
      (s.after options history).batch.set.frozen = false ∧
      (s.after options history).batch.set.registered.map Contract.unnumbered =
        (s.batch.set.registered ++ cs).map Contract.unnumbered := by
  induction h generalizing s with
  | nil => exact ⟨rfl, hfrozen, by simp [after]⟩
  | @cons e c history cs hc _ ih =>
    have hnew : c.path ∉ s.batch.set.registered.map (·.path) := by
      rw [List.map_append] at hpaths
      exact fun hmem => List.disjoint_of_nodup_append hpaths hmem List.mem_cons_self
    have hstate := answer_of_makes options hc hfrozen hnew
    have hregistered : (s.answer options e).1.batch.set.registered =
        s.batch.set.registered ++ [c.renumber fun _ => s.batch.set.size] := by
      simp [hstate, WorkingSet.registered, Contract.unlinked]
    have hrest := ih (s := (s.answer options e).1) (by rw [hstate]; exact hfrozen) (by
      simpa [hregistered, Contract.renumber] using hpaths)
    rw [hregistered] at hrest
    simpa [hstate, after, Contract.unnumbered, Contract.renumber] using hrest

/-- Contracts that registered have the numbers of their places, and no links yet. -/
theorem Registering.exists_open (h : Registering history cs) (options : Options)
    (aliases : AliasTable) : ∃ (b : Batch) (ds : List Contract), b.Open ds ∧
      ds.map Contract.unnumbered = cs.map Contract.unnumbered ∧
      preparation options aliases history = (b.prepare options aliases).2.result := by
  obtain ⟨haliases, hfrozen, hregistered⟩ :=
    after_of_makes options (s := ⟨{}, aliases⟩) h.makes rfl h.paths
  obtain ⟨ds, hopen | hsettled⟩ := (reachable_after options aliases history).sound
  · exact ⟨_, ds, hopen, hopen.registered ▸ hregistered, by rw [preparation, haliases]⟩
  · exact nomatch hfrozen.symm.trans hsettled.frozen

theorem Registering.of_perm {other : List Event} (h : Registering history cs)
    (hperm : other.Perm history) : ∃ ds, Registering other ds ∧ ds.Perm cs := by
  obtain ⟨ds, hmakes, hds⟩ := List.perm_comp_forall₂ hperm h.makes
  exact ⟨ds, ⟨hmakes, (hds.map _).nodup_iff.mpr h.paths⟩, hds⟩

-- ---------------------------------------------------------------------------
-- Another order
-- ---------------------------------------------------------------------------

/-- Whatever the order in which contracts are registered, a preparation ends in the same way, and
if it succeeds it links each contract in the same way. -/
theorem preparation_of_perm (options : Options) {other : List Event}
    (h : Registering history cs) (hperm : other.Perm history)
    (haliases : ∀ key text, aliases.get? key = some text → ∃ a, Address.ofText? text = some a) :
    ((∃ ordered, preparation options aliases history = .ok ordered) ↔
      ∃ ordered, preparation options aliases other = .ok ordered) ∧
    ((∃ u, preparation options aliases history = .error (.unresolved u)) ↔
      ∃ u, preparation options aliases other = .error (.unresolved u)) ∧
    ((∃ names, preparation options aliases history = .error (.cyclic names)) ↔
      ∃ names, preparation options aliases other = .error (.cyclic names)) ∧
    ∀ ordered reordered, preparation options aliases history = .ok ordered →
      preparation options aliases other = .ok reordered →
      (ordered.map (·.path)).Perm (cs.map (·.path)) ∧
      (reordered.map (·.path)).Perm (cs.map (·.path)) ∧
      ∀ c ∈ ordered, ∀ d ∈ reordered, c.path = d.path → c.Matches d := by
  obtain ⟨cs', h', hcs'⟩ := h.of_perm hperm
  obtain ⟨b, ds, hb, hds, hpreparation⟩ := h.exists_open options aliases
  obtain ⟨b', ds', hb', hds', hpreparation'⟩ := h'.exists_open options aliases
  have hsame : (ds.map Contract.unnumbered).Perm (ds'.map Contract.unnumbered) := by
    rw [hds, hds']
    exact (hcs'.map _).symm
  have hresolvable : Contract.Resolvable options aliases ds ↔
      Contract.Resolvable options aliases ds' := ⟨(·.of_perm hsame), (·.of_perm hsame.symm)⟩
  have hcircular : b.set.Circular ↔ b'.set.Circular :=
    ⟨(·.of_perm hb.holds hb'.holds hsame), (·.of_perm hb'.holds hb.holds hsame.symm)⟩
  obtain ⟨hok, hunresolved, hcyclic⟩ := hb.prepare_iff options haliases
  obtain ⟨hok', hunresolved', hcyclic'⟩ := hb'.prepare_iff options haliases
  rw [hpreparation, hpreparation', hok, hok', hunresolved, hunresolved', hcyclic, hcyclic',
    hresolvable, hcircular]
  refine ⟨Iff.rfl, Iff.rfl, Iff.rfl, fun ordered reordered hordered hreordered => ?_⟩
  obtain ⟨⟨ls, hls, hsub⟩, hpaths⟩ := hb.prepare_ok hordered
  obtain ⟨⟨ls', hls', hsub'⟩, hpaths'⟩ := hb'.prepare_ok hreordered
  rw [Contract.map_path_of_renumber hds] at hpaths
  rw [Contract.map_path_of_renumber hds'] at hpaths'
  exact ⟨hpaths, hpaths'.trans (hcs'.map _), fun c hc d hd hpath =>
    hb.matches_of_perm hb' hsame hls hls' (hsub hc) (hsub' hd) hpath⟩

/-- A contract that is registered before or after the one it imports is linked to it, and to an
alias, in the same way. -/
theorem preparation_of_perm_reversed :
    ∃ (history : List Event) (cs : List Contract) (aliases : AliasTable)
      (ordered reordered : List Linked), Registering history cs ∧
      (∀ key text, aliases.get? key = some text → ∃ a, Address.ofText? text = some a) ∧
      preparation {} aliases history = .ok ordered ∧
      preparation {} aliases history.reverse = .ok reordered ∧
      ordered.map (·.id) = [1, 0] ∧ reordered.map (·.id) = [0, 1] ∧
      ∀ c ∈ ordered, ∀ d ∈ reordered, c.path = d.path → c.Matches d := by
  let env : Environment := { workingDirectory := "/w", read := fun _ => .error .missing }
  let a : Contract := ⟨0, "A", "A.cdc", ⟨[1]⟩, "import \"./B.cdc\" import \"lib/X\"",
    ⟨[⟨[], .quoted "./B.cdc", ⟨⟨1, 1⟩, ⟨1, 17⟩⟩⟩, ⟨[], .quoted "lib/X", ⟨⟨1, 18⟩, ⟨1, 32⟩⟩⟩],
      ⟨⟨1, 1⟩, ⟨1, 32⟩⟩, "A.cdc"⟩⟩
  let b : Contract := ⟨0, "B", "B.cdc", ⟨[2]⟩, "", ⟨[], ⟨⟨1, 1⟩, ⟨1, 1⟩⟩, "B.cdc"⟩⟩
  let history : List Event :=
    [⟨env, .addCode "A" "A.cdc" a.code "01"⟩, ⟨env, .addCode "B" "B.cdc" b.code "02"⟩]
  let aliases : AliasTable := ⟨[("X", "0x03")]⟩
  have hregistering : Registering history [a, b] := by
    refine ⟨.cons ⟨_, _, _, _, .addCode .., ?_⟩ (.cons ⟨_, _, _, _, .addCode .., ?_⟩ .nil),
      by decide⟩
    · exact ⟨rfl, by decide +kernel, by decide +kernel, rfl, by decide +kernel⟩
    · exact ⟨rfl, by decide +kernel, by decide +kernel, rfl, by decide +kernel⟩
  have haliases : ∀ key text, aliases.get? key = some text →
      ∃ a, Address.ofText? text = some a := by
    intro key text h
    obtain ⟨-, rfl⟩ : "X" = key ∧ "0x03" = text := by
      simpa [aliases, Table.get?, Table.find] using h
    exact ⟨⟨[3]⟩, by decide +kernel⟩
  obtain ⟨ordered, hordered, hids⟩ : ∃ ordered, preparation {} aliases history = .ok ordered ∧
      ordered.map (·.id) = [1, 0] := map_eq_ok.mp (by decide +kernel)
  obtain ⟨hok, -, -, hmatches⟩ :=
    preparation_of_perm {} hregistering (List.reverse_perm history) haliases
  obtain ⟨reordered, hreordered⟩ := hok.mp ⟨ordered, hordered⟩
  have hreversed : (preparation {} aliases history.reverse).map (·.map (·.id)) = .ok [0, 1] := by
    decide +kernel
  rw [hreordered] at hreversed
  exact ⟨history, [a, b], aliases, ordered, reordered, hregistering, haliases, hordered, hreordered,
    hids, Except.ok.inj hreversed, (hmatches ordered reordered hordered hreordered).2.2⟩

-- ---------------------------------------------------------------------------
-- One more contract
-- ---------------------------------------------------------------------------

theorem Registering.insert {n : Contract} (h : Registering (front ++ back) cs) (hn : e.Makes n)
    (hnew : n.path ∉ cs.map (·.path)) :
    ∃ cs₁ cs₂, cs = cs₁ ++ cs₂ ∧ Registering (front ++ e :: back) (cs₁ ++ n :: cs₂) := by
  have hfront := (List.forall₂_take_append _ _ _ h.makes.flip).flip
  have hback := (List.forall₂_drop_append _ _ _ h.makes.flip).flip
  have hcs := (List.take_append_drop front.length cs).symm
  refine ⟨_, _, hcs, List.rel_append hfront (.cons hn hback), ?_⟩
  refine (List.perm_middle.map _).nodup_iff.mpr ?_
  rw [← hcs, List.map_cons]
  exact h.paths.cons hnew

/-- With one more contract whose imports lead somewhere and that nobody imports, a preparation still
succeeds. The other contracts are ordered and linked as before. -/
theorem preparation_of_insertion {n : Contract} {ordered : List Linked}
    (h : Registering (front ++ back) cs) (hn : e.Makes n) (hnew : n.path ∉ cs.map (·.path))
    (hleaf : ∀ c ∈ n :: cs, ∀ location ∈ c.program.locations,
      Path.locate c.path location ≠ n.path)
    (hresolves : ∀ location ∈ n.program.locations, n.Resolves options aliases (n :: cs) location)
    (hok : preparation options aliases (front ++ back) = .ok ordered) :
    ∃ whole, preparation options aliases (front ++ e :: back) = .ok whole ∧
      (whole.map (·.path)).Perm (n.path :: cs.map (·.path)) ∧
      List.Forall₂ Linked.Matches (whole.filter (·.path ≠ n.path)) ordered := by
  obtain ⟨cs₁, cs₂, rfl, h'⟩ := h.insert hn hnew
  obtain ⟨b, ds, hb, hds, hpreparation⟩ := h.exists_open options aliases
  obtain ⟨b', ds', hb', hds', hpreparation'⟩ := h'.exists_open options aliases
  rw [hpreparation] at hok
  obtain ⟨front', rest, rfl, hfront, hrest⟩ :=
    List.map_eq_append_iff.mp (hds'.trans List.map_append)
  obtain ⟨m, back', rfl, hm, hback⟩ := List.map_eq_cons_iff.mp (hrest.trans List.map_cons)
  have hpath : m.path = n.path := (congrArg Contract.path hm :)
  have hcs : ds.map (Contract.renumber (Contract.shift front'.length)) = front' ++ back' := by
    refine Contract.map_renumber_shift hb.ids hb'.ids ?_
    rw [hds, List.map_append, List.map_append, hfront, hback]
  have hpaths : ((front' ++ m :: back').map (·.path)).Perm
      (n.path :: (cs₁ ++ cs₂).map (·.path)) := by
    rw [Contract.map_path_of_renumber hds']
    exact List.perm_middle.map _
  have hleaf' : ∀ x ∈ front' ++ m :: back', ∀ location ∈ x.program.locations,
      Path.locate x.path location ≠ m.path := by
    intro x hx location hl
    obtain ⟨c, hc, hcx⟩ := List.mem_map.mp (hds' ▸ List.mem_map_of_mem hx)
    have hprogram : c.program = x.program := (congrArg Contract.program hcx :)
    have hsource : c.path = x.path := (congrArg Contract.path hcx :)
    rw [hpath, ← hsource]
    exact hleaf c (List.perm_middle.subset hc) location (hprogram ▸ hl)
  have hresolves' : ∀ location ∈ m.program.locations,
      m.Resolves options aliases (front' ++ m :: back') location := by
    intro location hl
    have hprogram : m.program = n.program := (congrArg Contract.program hm :)
    have hresolved := (hresolves location (hprogram ▸ hl)).of_paths hpaths.symm.subset
    rwa [Contract.Resolves, ← hpath] at hresolved
  obtain ⟨whole, hwhole, hfilter⟩ :=
    hb.prepare_insert hb' (Contract.shift_injective _) hcs hleaf' hresolves' hok
  refine ⟨whole, hpreparation'.trans hwhole, (hb'.prepare_ok hwhole).2.trans hpaths, ?_⟩
  rw [← hpath, hfilter, List.forall₂_map_left_iff]
  exact List.forall₂_same.mpr fun c _ => Linked.matches_renumber c

/-- A contract that comes in first, and takes the first number, is deployed between the others. -/
theorem preparation_of_insertion_first :
    ∃ (history : List Event) (cs : List Contract) (e : Event) (n : Contract)
      (ordered whole : List Linked), Registering history cs ∧ e.Makes n ∧
      n.path ∉ cs.map (·.path) ∧
      (∀ c ∈ n :: cs, ∀ location ∈ c.program.locations,
        Path.locate c.path location ≠ n.path) ∧
      (∀ location ∈ n.program.locations, n.Resolves {} .empty (n :: cs) location) ∧
      preparation {} .empty history = .ok ordered ∧
      preparation {} .empty (e :: history) = .ok whole ∧
      ordered.map (·.name) = ["B", "A"] ∧ whole.map (·.name) = ["B", "N", "A"] ∧
      List.Forall₂ Linked.Matches (whole.filter (·.path ≠ n.path)) ordered := by
  let env : Environment := { workingDirectory := "/w", read := fun _ => .error .missing }
  let a : Contract := ⟨0, "A", "A.cdc", ⟨[1]⟩, "import \"./B.cdc\"",
    ⟨[⟨[], .quoted "./B.cdc", ⟨⟨1, 1⟩, ⟨1, 17⟩⟩⟩], ⟨⟨1, 1⟩, ⟨1, 17⟩⟩, "A.cdc"⟩⟩
  let b : Contract := ⟨0, "B", "B.cdc", ⟨[2]⟩, "", ⟨[], ⟨⟨1, 1⟩, ⟨1, 1⟩⟩, "B.cdc"⟩⟩
  let n : Contract := ⟨0, "N", "lib/N.cdc", ⟨[3]⟩, "import \"../B.cdc\"",
    ⟨[⟨[], .quoted "../B.cdc", ⟨⟨1, 1⟩, ⟨1, 18⟩⟩⟩], ⟨⟨1, 1⟩, ⟨1, 18⟩⟩, "lib/N.cdc"⟩⟩
  let history : List Event :=
    [⟨env, .addCode "A" "A.cdc" a.code "01"⟩, ⟨env, .addCode "B" "B.cdc" b.code "02"⟩]
  let e : Event := ⟨env, .addCode "N" "lib/N.cdc" n.code "03"⟩
  have hregistering : Registering history [a, b] := by
    refine ⟨.cons ⟨_, _, _, _, .addCode .., ?_⟩ (.cons ⟨_, _, _, _, .addCode .., ?_⟩ .nil),
      by decide⟩
    · exact ⟨rfl, by decide +kernel, by decide +kernel, rfl, by decide +kernel⟩
    · exact ⟨rfl, by decide +kernel, by decide +kernel, rfl, by decide +kernel⟩
  have hn : e.Makes n := ⟨_, _, _, _, .addCode .., rfl, by decide +kernel, by decide +kernel, rfl,
    by decide +kernel⟩
  have hnew : n.path ∉ [a, b].map (·.path) := by decide
  have hleaf : ∀ c ∈ [n, a, b], ∀ location ∈ c.program.locations,
      Path.locate c.path location ≠ n.path := by decide +kernel
  have hresolves : ∀ location ∈ n.program.locations,
      n.Resolves {} .empty [n, a, b] location := by
    intro location hl
    obtain rfl : location = "../B.cdc" := List.mem_singleton.mp hl
    exact .inl ⟨b, by simp, by decide +kernel⟩
  obtain ⟨ordered, hordered, hnames⟩ : ∃ ordered, preparation {} .empty history = .ok ordered ∧
      ordered.map (·.name) = ["B", "A"] := map_eq_ok.mp (by decide +kernel)
  obtain ⟨whole, hwhole, -, hmatches⟩ :=
    preparation_of_insertion (show Registering ([] ++ history) [a, b] from hregistering) hn hnew
      hleaf hresolves hordered
  have hthree : (preparation {} .empty (e :: history)).map (·.map (·.name)) =
      .ok ["B", "N", "A"] := by decide +kernel
  rw [show preparation {} .empty (e :: history) = .ok whole from hwhole] at hthree
  exact ⟨history, [a, b], e, n, ordered, whole, hregistering, hn, hnew, hleaf, hresolves, hordered,
    hwhole, hnames, Except.ok.inj hthree, hmatches⟩

end Session

end ContractLinker
