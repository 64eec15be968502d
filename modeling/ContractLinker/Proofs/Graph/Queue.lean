import ContractLinker.Proofs.Graph.Order
import Mathlib.Order.Lattice.Nat

/-!
# The order of the queue

`sort_built`: sorting a graph that additions built fails exactly if some node leads back to
itself, and otherwise gives the one order in which every node has its turn (`InTurn`): nodes
without predecessors come first, and any other two nodes are in the order in which their last
predecessors left. The nodes then stand by their depths. Both follow from what a step of the queue
keeps, `Queueing` and `Layered`.
-/

namespace ContractLinker

open Relation (TransGen)

variable {α : Type} {l l₁ l₂ : List α} {x y : α}

-- ---------------------------------------------------------------------------
-- Places in a row
-- ---------------------------------------------------------------------------

/-- One member of a row stands before another. -/
def Precedes (l : List α) (x y : α) : Prop := [x, y].Sublist l

namespace Precedes

theorem mem_left (h : Precedes l x y) : x ∈ l := h.subset (by simp)

theorem mem_right (h : Precedes l x y) : y ∈ l := h.subset (by simp)

theorem mono (h : Precedes l₁ x y) (hl : l₁.Sublist l₂) : Precedes l₂ x y := h.trans hl

theorem cons_left (hy : y ∈ l) : Precedes (x :: l) x y :=
  (List.singleton_sublist.mpr hy).cons_cons x

theorem append (hx : x ∈ l₁) (hy : y ∈ l₂) : Precedes (l₁ ++ l₂) x y :=
  (List.singleton_sublist.mpr hx).append (List.singleton_sublist.mpr hy)

/-- Places in a front part are places in the whole row. -/
theorem of_append (hl : (l₁ ++ l₂).Nodup) (h : Precedes (l₁ ++ l₂) x y) (hy : y ∈ l₁) :
    Precedes l₁ x y := by
  obtain ⟨a, b, he, ha, hb⟩ := List.sublist_append_iff.mp h
  rcases List.eq_nil_or_concat b with rfl | ⟨b, z, rfl⟩
  · rw [List.append_nil] at he
    subst he
    exact ha
  · have hlast : [x] ++ [y] = (a ++ b) ++ [z] := by simpa using he
    cases (List.append_inj' hlast rfl).2
    exact absurd (hb.subset (by simp)) (List.disjoint_of_nodup_append hl hy)

theorem asymm (hl : l.Nodup) (h : Precedes l x y) : ¬ Precedes l y x := by
  intro h'
  obtain ⟨l₁, l₂, rfl, hx, hy⟩ := List.cons_sublist_iff.mp h
  exact List.disjoint_of_nodup_append hl (h'.of_append hl hx).mem_left
    (List.singleton_sublist.mp hy)

theorem total (hx : x ∈ l) (hy : y ∈ l) (hne : x ≠ y) : Precedes l x y ∨ Precedes l y x := by
  obtain ⟨l₁, l₂, rfl⟩ := List.append_of_mem hx
  rcases List.mem_append.mp hy with hy | hy
  · exact .inr (append hy List.mem_cons_self)
  · have hy : y ∈ l₂ := (List.mem_cons.mp hy).resolve_left hne.symm
    rw [List.append_cons]
    exact .inl (append (by simp) hy)

end Precedes

namespace Graph

variable {g : Graph α} {row left queue order front back other : List α} {p q n : α}

-- ---------------------------------------------------------------------------
-- Turns
-- ---------------------------------------------------------------------------

/-- Of the predecessors of `x`, `p` is placed last. -/
structure IsLast (g : Graph α) (row : List α) (p x : α) : Prop where
  leads : g.Leads p x
  precedes : ∀ {q}, g.Leads q x → q ≠ p → Precedes row q p

theorem IsLast.mono (h : g.IsLast l₁ p x) (hl : l₁.Sublist l₂) : g.IsLast l₂ p x :=
  ⟨h.leads, fun hq hne => (h.precedes hq hne).mono hl⟩

theorem IsLast.unique (hrow : row.Nodup) (hp : g.IsLast row p x) (hq : g.IsLast row q x) :
    p = q := by
  by_contra hne
  exact (hq.precedes hp.leads hne).asymm hrow (hp.precedes hq.leads (Ne.symm hne))

/-- Last predecessors are the same in two rows with the same front part. -/
theorem IsLast.of_front (hnodup : (front ++ back).Nodup)
    (h : g.IsLast (front ++ back) p x) (hx : ∀ q, g.Leads q x → q ∈ front) :
    g.IsLast (front ++ other) p x :=
  ⟨h.leads, fun hq hne => ((h.precedes hq hne).of_append hnodup (hx p h.leads)).mono
    (List.sublist_append_left front other)⟩

/-- Of some predecessors in a row one is placed last. -/
theorem exists_isLast (hx : ∃ p, g.Leads p x) (h : ∀ p, g.Leads p x → p ∈ row) :
    ∃ p, g.IsLast row p x := by
  induction row using List.reverseRecOn with
  | nil =>
    obtain ⟨p, hp⟩ := hx
    exact nomatch h p hp
  | append_singleton row n ih =>
    have hmem : ∀ p, g.Leads p x → p ≠ n → p ∈ row := fun p hp hne =>
      (List.mem_append.mp (h p hp)).resolve_right fun hn => hne (List.mem_singleton.mp hn)
    by_cases hn : g.Leads n x
    · exact ⟨n, hn, fun hq hne => .append (hmem _ hq hne) (by simp)⟩
    · obtain ⟨p, hp⟩ := ih fun p hp => hmem p hp fun he => hn (he ▸ hp)
      exact ⟨p, hp.mono (List.sublist_append_left row [n])⟩

/-- A walk of some number of edges ends at a node. -/
inductive Walk (g : Graph α) : Nat → α → Prop
  | start {n : α} : Walk g 0 n
  | step {k : Nat} {p n : α} : Walk g k p → g.Leads p n → Walk g (k + 1) n

/-- The number of edges of the longest walk to a node. -/
noncomputable def depth (g : Graph α) (n : α) : Nat := sSup {k | g.Walk k n}

theorem depth_eq {d : Nat} (h : IsGreatest {k | g.Walk k n} d) : g.depth n = d := h.csSup_eq

theorem isGreatest_depth {d : Nat} (h : IsGreatest {k | g.Walk k n} d) :
    IsGreatest {k | g.Walk k n} (g.depth n) := by
  rw [depth_eq h]
  exact h

theorem isGreatest_walk_zero (h : ¬ ∃ p, g.Leads p n) : IsGreatest {k | g.Walk k n} 0 := by
  refine ⟨.start, fun k hk => ?_⟩
  cases hk with
  | start => exact le_rfl
  | step _ hp => exact absurd ⟨_, hp⟩ h

/-- A walk to a node goes on from a walk to one of its predecessors. -/
theorem Walk.le_succ {d k : Nat} (hk : g.Walk k n)
    (h : ∀ q, g.Leads q n → ∀ k, g.Walk k q → k ≤ d) : k ≤ d + 1 := by
  cases hk with
  | start => exact Nat.zero_le _
  | step hq hqn => exact Nat.succ_le_succ (h _ hqn _ hq)

variable [DecidableEq α]

/-- The last predecessor of `x` leaves before that of `y`, or it is the same one and has `x`
before `y` among its successors. -/
def ReadyBefore (g : Graph α) (row : List α) (x y : α) : Prop :=
  ∃ p q, g.IsLast row p x ∧ g.IsLast row q y ∧
    (Precedes row p q ∨ p = q ∧ Precedes (g.successors p) x y)

theorem ReadyBefore.mono (h : g.ReadyBefore l₁ x y) (hl : l₁.Sublist l₂) :
    g.ReadyBefore l₂ x y := by
  obtain ⟨p, q, hp, hq, hpq⟩ := h
  exact ⟨p, q, hp.mono hl, hq.mono hl, hpq.imp_left (·.mono hl)⟩

theorem ReadyBefore.asymm (hg : g.WellFormed) (hrow : row.Nodup) (h : g.ReadyBefore row x y) :
    ¬ g.ReadyBefore row y x := by
  rintro ⟨q', p', hq', hp', hqp⟩
  obtain ⟨p, q, hp, hq, hpq⟩ := h
  cases hp.unique hrow hp'
  cases hq.unique hrow hq'
  rcases hpq with hpq | ⟨rfl, hxy⟩
  · rcases hqp with hqp | ⟨rfl, -⟩
    · exact hpq.asymm hrow hqp
    · exact hpq.asymm hrow hpq
  · rcases hqp with hqp | ⟨-, hyx⟩
    · exact hqp.asymm hrow hqp
    · exact hxy.asymm (hg.nodup_successors _) hyx

/-- The nodes without predecessors, in the order in which they were added. -/
def sources (g : Graph α) : List α := g.nodes.filter fun n => (g.predecessors n).isEmpty

theorem mem_sources : n ∈ g.sources ↔ n ∈ g.nodes ∧ ¬ ∃ p, g.Leads p n := by
  simp [sources, List.eq_nil_iff_forall_not_mem, mem_predecessors, Leads]

/-- The order in which every node has its turn: once each, behind its predecessors, the nodes
without predecessors first and the others as their last predecessors leave. -/
structure InTurn (g : Graph α) (order : List α) : Prop where
  nodup : order.Nodup
  mem_iff : ∀ {x}, x ∈ order ↔ x ∈ g.nodes
  forwards : g.Forwards order
  sources : g.sources <+: order
  precedes_iff : ∀ {x y}, x ≠ y → (∃ p, g.Leads p x) → (∃ p, g.Leads p y) →
    (Precedes order x y ↔ g.ReadyBefore order x y)

/-- The state of the queue. Those that have left it and those that stand in it are in the order of
their turns. -/
structure Queueing (g : Graph α) (left queue : List α) : Prop extends g.Draining left queue where
  sources : g.sources <+: left ++ queue
  turns : (left ++ queue).Pairwise fun x y =>
    (∃ p, g.Leads p x) → (∃ p, g.Leads p y) → g.ReadyBefore left x y

theorem filter_isReady_nil (g : Graph α) : g.nodes.filter (g.isReady []) = g.sources := by
  refine List.filter_congr fun n _ => ?_
  unfold isReady
  cases g.predecessors n <;> rfl

theorem Queueing.start (hg : g.WellFormed) : g.Queueing [] (g.nodes.filter (g.isReady [])) where
  toDraining := .start hg
  sources := by rw [filter_isReady_nil]; exact List.prefix_rfl
  turns := by
    rw [filter_isReady_nil, List.nil_append]
    refine List.pairwise_of_forall_mem_list fun x hx y _ hpred _ => ?_
    exact absurd hpred (mem_sources.mp hx).2

/-- Those that join the queue have been waiting for the one that leaves it. -/
theorem isLast_of_joined (hx : x ∈ (g.successors n).filter (g.isReady (left ++ [n]))) :
    g.IsLast (left ++ [n]) n x := by
  obtain ⟨hsucc, hready⟩ := List.mem_filter.mp hx
  refine ⟨mem_successors.mp hsucc, fun {q} hq hne => ?_⟩
  have hmem := isReady_iff.mp hready q hq
  exact .append ((List.mem_append.mp hmem).resolve_right (by simpa using hne)) (by simp)

theorem Queueing.step (hg : g.WellFormed) (h : g.Queueing left (n :: queue)) :
    g.Queueing (left ++ [n]) (queue ++ (g.successors n).filter (g.isReady (left ++ [n]))) := by
  have hleft : left.Sublist (left ++ [n]) := List.sublist_append_left left [n]
  refine ⟨h.toDraining.step hg, ?_, ?_⟩
  · rw [row_step]
    exact h.sources.trans (List.prefix_append _ _)
  · rw [row_step, List.pairwise_append]
    refine ⟨h.turns.imp fun hxy hx hy => (hxy hx hy).mono hleft, ?_, ?_⟩
    · refine List.pairwise_iff_forall_sublist.mpr fun {x y} hxy _ _ => ?_
      have hx : g.IsLast (left ++ [n]) n x := isLast_of_joined (Precedes.mem_left hxy)
      have hy : g.IsLast (left ++ [n]) n y := isLast_of_joined (Precedes.mem_right hxy)
      exact ⟨n, n, hx, hy, .inr ⟨rfl, hxy.trans List.filter_sublist⟩⟩
    · intro x hx y hy hpred _
      obtain ⟨p, hp⟩ := exists_isLast hpred (h.mem_iff.mp hx).2
      have hpn : Precedes (left ++ [n]) p n :=
        .append ((h.mem_iff.mp hx).2 p hp.leads) (by simp)
      exact ⟨p, n, hp.mono hleft, isLast_of_joined hy, .inl hpn⟩

theorem queueing_leaving (hg : g.WellFormed) : g.Queueing g.leaving [] :=
  drain_of_step g.Queueing Queueing.toDraining (Queueing.step hg) (.start hg) (by simp)

theorem inTurn_leaving (hg : g.WellFormed) (hlen : g.leaving.length = g.nodes.length) :
    g.InTurn g.leaving := by
  have h := queueing_leaving hg
  have hperm : g.leaving.Perm g.nodes := (subperm_leaving hg).perm_of_length_le hlen.ge
  have hnodup : g.leaving.Nodup := by simpa using h.nodup
  have hturns : ∀ {x y}, Precedes g.leaving x y → (∃ p, g.Leads p x) → (∃ p, g.Leads p y) →
      g.ReadyBefore g.leaving x y := by
    intro x y hxy
    rw [← List.append_nil g.leaving] at hxy
    exact List.pairwise_iff_forall_sublist.mp h.turns hxy
  refine ⟨hnodup, hperm.mem_iff, h.forwards, by simpa using h.sources, ?_⟩
  intro x y hne hx hy
  refine ⟨fun hxy => hturns hxy hx hy, fun hxy => ?_⟩
  have hmem : ∀ {z}, (∃ p, g.Leads p z) → z ∈ g.leaving := fun ⟨_, hp⟩ =>
    hperm.symm.subset (hg.ends hp).2
  rcases Precedes.total (hmem hx) (hmem hy) hne with h' | h'
  · exact h'
  · exact absurd (hturns h' hy hx) (hxy.asymm hg hnodup)

theorem inTurn_of_sort (hg : g.WellFormed) (h : g.sort = .ok order) : g.InTurn order := by
  obtain ⟨hlength, rfl⟩ := sort_eq_ok_iff.mp h
  exact inTurn_leaving hg hlength

-- ---------------------------------------------------------------------------
-- Depths
-- ---------------------------------------------------------------------------

/-- The state of the queue. Those that have left it and those that stand in it are sorted by
depth. -/
structure Layered (g : Graph α) (left queue : List α) : Prop extends g.Draining left queue where
  isGreatest : ∀ {x}, x ∈ left ++ queue → IsGreatest {k | g.Walk k x} (g.depth x)
  sorted : (left ++ queue).Pairwise fun x y => g.depth x ≤ g.depth y

theorem Layered.start (hg : g.WellFormed) : g.Layered [] (g.nodes.filter (g.isReady [])) := by
  rw [filter_isReady_nil]
  have hzero : ∀ {x}, x ∈ g.sources → IsGreatest {k | g.Walk k x} 0 := fun hx =>
    isGreatest_walk_zero (mem_sources.mp hx).2
  refine ⟨filter_isReady_nil g ▸ .start hg, fun hx => isGreatest_depth (hzero hx), ?_⟩
  refine List.pairwise_of_forall_mem_list fun x hx y _ => ?_
  rw [depth_eq (hzero hx)]
  exact Nat.zero_le _

theorem Layered.step (hg : g.WellFormed) (h : g.Layered left (n :: queue)) :
    g.Layered (left ++ [n]) (queue ++ (g.successors n).filter (g.isReady (left ++ [n]))) := by
  have hn : n ∈ left ++ n :: queue := by simp
  have hbound : ∀ p ∈ left ++ [n], ∀ k, g.Walk k p → k ≤ g.depth n := by
    intro p hp k hk
    rcases List.mem_append.mp hp with hp | hp
    · have hpn : g.depth p ≤ g.depth n :=
        (List.pairwise_append.mp h.sorted).2.2 p hp n List.mem_cons_self
      exact ((h.isGreatest (List.mem_append_left _ hp)).2 hk).trans hpn
    · cases List.mem_singleton.mp hp
      exact (h.isGreatest hn).2 hk
  have hjoined : ∀ {x}, x ∈ (g.successors n).filter (g.isReady (left ++ [n])) →
      IsGreatest {k | g.Walk k x} (g.depth n + 1) := by
    intro x hx
    refine ⟨Walk.step (h.isGreatest hn).1 (isLast_of_joined hx).leads, fun k hk => ?_⟩
    exact Walk.le_succ hk fun q hq => hbound q (isReady_iff.mp (List.mem_filter.mp hx).2 q hq)
  -- No depth in the row is more than one above that of the node that leaves.
  have hold : ∀ x ∈ left ++ n :: queue, g.depth x ≤ g.depth n + 1 := fun x hx =>
    Walk.le_succ (h.isGreatest hx).1 fun q hq =>
      hbound q (List.mem_append_left _ ((h.mem_iff.mp hx).2 q hq))
  refine ⟨h.toDraining.step hg, fun {x} hx => ?_, ?_⟩
  · rw [row_step] at hx
    rcases List.mem_append.mp hx with hx | hx
    · exact h.isGreatest hx
    · exact isGreatest_depth (hjoined hx)
  · have hdepth : ∀ {x}, x ∈ (g.successors n).filter (g.isReady (left ++ [n])) →
        g.depth x = g.depth n + 1 := fun hx => depth_eq (hjoined hx)
    rw [row_step, List.pairwise_append]
    refine ⟨h.sorted, List.pairwise_of_forall_mem_list fun x hx y hy => ?_, ?_⟩
    · exact ((hdepth hx).trans (hdepth hy).symm).le
    · intro x hx y hy
      rw [hdepth hy]
      exact hold x hx

theorem layered_leaving (hg : g.WellFormed) : g.Layered g.leaving [] :=
  drain_of_step g.Layered Layered.toDraining (Layered.step hg) (.start hg) (by simp)

-- ---------------------------------------------------------------------------
-- There is one such order
-- ---------------------------------------------------------------------------

theorem ReadyBefore.of_front (hnodup : (front ++ back).Nodup)
    (h : g.ReadyBefore (front ++ back) x y) (hx : ∀ q, g.Leads q x → q ∈ front)
    (hy : ∀ q, g.Leads q y → q ∈ front) : g.ReadyBefore (front ++ other) x y := by
  obtain ⟨p, q, hp, hq, hpq⟩ := h
  refine ⟨p, q, hp.of_front hnodup hx, hq.of_front hnodup hy, hpq.imp_left fun hpq => ?_⟩
  exact (hpq.of_append hnodup (hy q hq.leads)).mono (List.sublist_append_left front other)

/-- The sources end within a front part or go on with the next node. -/
theorem InTurn.sources_cases {rest : List α} (h : g.InTurn (front ++ x :: rest)) :
    front ++ [x] <+: g.sources ∨ g.sources <+: front := by
  have hnext : front ++ [x] <+: front ++ x :: rest := by simp
  rcases List.prefix_or_prefix_of_prefix hnext h.sources with h' | h'
  · exact .inl h'
  · rcases List.prefix_concat_iff.mp h' with he | h'
    · exact .inl (he ▸ List.prefix_rfl)
    · exact .inr h'

/-- Behind equal front parts the same node has its turn. -/
theorem InTurn.eq_of_front {rest₁ rest₂ : List α} (h₁ : g.InTurn (front ++ x :: rest₁))
    (h₂ : g.InTurn (front ++ y :: rest₂)) : x = y := by
  rcases h₁.sources_cases with hnext | hfront
  · have hx : front ++ [x] <+: front ++ y :: rest₂ := hnext.trans h₂.sources
    simpa using hx
  by_contra hne
  have hx : ∀ q, g.Leads q x → q ∈ front := h₁.forwards front x rest₁ rfl
  have hy : ∀ q, g.Leads q y → q ∈ front := h₂.forwards front y rest₂ rfl
  have hxFront : x ∉ front := fun hm =>
    List.disjoint_of_nodup_append h₁.nodup hm List.mem_cons_self
  have hyFront : y ∉ front := fun hm =>
    List.disjoint_of_nodup_append h₂.nodup hm List.mem_cons_self
  have hxNode : x ∈ g.nodes := h₁.mem_iff.mp (by simp)
  have hyNode : y ∈ g.nodes := h₂.mem_iff.mp (by simp)
  have hpred : ∀ {z}, z ∈ g.nodes → z ∉ front → ∃ p, g.Leads p z := fun hz hzFront => by
    by_contra hno
    exact hzFront (hfront.subset (mem_sources.mpr ⟨hz, hno⟩))
  have hxy : Precedes (front ++ x :: rest₁) x y := by
    have hm := h₁.mem_iff.mpr hyNode
    rw [List.append_cons] at hm ⊢
    exact .append (by simp) ((List.mem_append.mp hm).resolve_left (by simp [hyFront, Ne.symm hne]))
  have hyx : Precedes (front ++ y :: rest₂) y x := by
    have hm := h₂.mem_iff.mpr hxNode
    rw [List.append_cons] at hm ⊢
    exact .append (by simp) ((List.mem_append.mp hm).resolve_left (by simp [hxFront, hne]))
  have hxPred := hpred hxNode hxFront
  have hyPred := hpred hyNode hyFront
  have hready : g.ReadyBefore (front ++ y :: rest₂) x y :=
    ((h₁.precedes_iff hne hxPred hyPred).mp hxy).of_front h₁.nodup hx hy
  exact hyx.asymm h₂.nodup ((h₂.precedes_iff hne hxPred hyPred).mpr hready)

theorem InTurn.unique (h₁ : g.InTurn order) (h₂ : g.InTurn other) :
    order = other := by
  have hfront : ∀ front, front <+: order → front <+: other := by
    intro front
    induction front using List.reverseRecOn with
    | nil => exact fun _ => List.nil_prefix
    | append_singleton front x ih =>
      intro hx
      have hfront : front <+: order := (List.prefix_append front [x]).trans hx
      obtain ⟨rest₁, rfl⟩ := hx
      obtain ⟨back, rfl⟩ := ih hfront
      rw [List.append_assoc, List.singleton_append] at h₁
      cases back with
      | nil =>
        have hm := h₂.mem_iff.mpr (h₁.mem_iff.mp (List.mem_append_right front List.mem_cons_self))
        rw [List.append_nil] at hm
        exact absurd List.mem_cons_self (List.disjoint_of_nodup_append h₁.nodup hm)
      | cons y rest₂ =>
        cases h₁.eq_of_front h₂
        simp
  have hlength : order.length = other.length :=
    ((List.perm_ext_iff_of_nodup h₁.nodup h₂.nodup).mpr
      fun _ => h₁.mem_iff.trans h₂.mem_iff.symm).length_eq
  exact (hfront order List.prefix_rfl).eq_of_length hlength

-- ---------------------------------------------------------------------------
-- Sorting
-- ---------------------------------------------------------------------------

/-- Sorting a graph that additions built fails exactly if some node leads back to itself, and
otherwise gives the order in which every node has its turn, sorted by depth. -/
theorem sort_built (h : g.Built) :
    ((∃ cycle, g.sort = .error cycle) ↔ ∃ n, TransGen g.Leads n n) ∧
    ((¬ ∃ n, TransGen g.Leads n n) →
      ∃ order, g.sort = .ok order ∧ g.InTurn order ∧ (∀ other, g.InTurn other → other = order) ∧
        (∀ n ∈ order, IsGreatest {k | g.Walk k n} (g.depth n)) ∧
        order.Pairwise fun x y => g.depth x ≤ g.depth y) := by
  have hg := h.wellFormed
  refine ⟨exists_sort_eq_error_iff hg, fun hacyclic => ?_⟩
  have hok : g.leaving.length = g.nodes.length := by
    rw [← exists_sort_eq_error_iff hg] at hacyclic
    cases hsort : g.sort with
    | ok order => exact (sort_eq_ok_iff.mp hsort).1
    | error cycle => exact absurd ⟨cycle, hsort⟩ hacyclic
  have hturn := inTurn_leaving hg hok
  have hlayered := layered_leaving hg
  refine ⟨g.leaving, sort_eq_ok_iff.mpr ⟨hok, rfl⟩, hturn, fun other h => h.unique hturn, ?_, ?_⟩
  · exact fun n hn => hlayered.isGreatest (List.mem_append_left _ hn)
  · simpa using hlayered.sorted

/-- A node added first comes last if the last of its predecessors does. -/
theorem sort_built_first_last :
    ∃ g : Graph Nat, g.Built ∧ (¬ ∃ n, TransGen g.Leads n n) ∧ g.nodes = [1, 3, 2, 4, 5] ∧
      g.sort = .ok [3, 2, 5, 4, 1] ∧ g.InTurn [3, 2, 5, 4, 1] ∧
      g.ReadyBefore [3, 2, 5, 4, 1] 5 1 ∧ g.depth 3 ≤ g.depth 1 := by
  obtain ⟨g, hdef⟩ : ∃ g : Graph Nat, g =
      ((((empty.addNode 1).addEdge 3 1).addEdge 2 4).addEdge 3 5).addEdge 2 1 := ⟨_, rfl⟩
  have hg : g.Built := hdef ▸ Built.empty.addNode.addEdge.addEdge.addEdge.addEdge
  have hsort : g.sort = .ok [3, 2, 5, 4, 1] := sort_eq_ok_iff.mpr (by rw [hdef]; decide)
  have hacyclic : ¬ ∃ n, TransGen g.Leads n n := fun hcycle => by
    obtain ⟨cycle, herror⟩ := (sort_built hg).1.mpr hcycle
    exact nomatch hsort.symm.trans herror
  obtain ⟨order, hok, hturn, -, -, hdepth⟩ := (sort_built hg).2 hacyclic
  obtain rfl : [3, 2, 5, 4, 1] = order := Except.ok.inj (hsort.symm.trans hok)
  have hleads : g.Leads 3 5 ∧ g.Leads 3 1 := by rw [hdef]; unfold Leads; decide
  have hplaces : Precedes [3, 2, 5, 4, 1] 5 1 := by unfold Precedes; decide
  refine ⟨g, hg, hacyclic, by rw [hdef]; decide, hsort, hturn, ?_, ?_⟩
  · exact (hturn.precedes_iff (by decide) ⟨3, hleads.1⟩ ⟨3, hleads.2⟩).mp hplaces
  · exact List.pairwise_iff_forall_sublist.mp hdepth (by decide)

end Graph

end ContractLinker
