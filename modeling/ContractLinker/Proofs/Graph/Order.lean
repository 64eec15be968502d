import ContractLinker.Graph.Order
import Mathlib.Data.List.Chain
import Mathlib.Data.List.Nodup
import Mathlib.Data.List.Perm.Subperm
import Mathlib.Logic.Relation

/-!
# Sorting a graph

`sort_spec`: a graph that additions built is sorted into a row of all its nodes in which every
edge leads forwards, or into a cycle of its edges. The queue is followed by one invariant,
`Draining`: what has left the queue or stands in it are the nodes whose predecessors have all
left. The search for a cycle is followed by another, `Chasing`; `endsWalk_of_sort_eq_error` says
which walk a reported cycle is the end of.
-/

namespace ContractLinker.Graph

open Relation (TransGen)

variable {α : Type} {g : Graph α} {a b m n : α}

-- ---------------------------------------------------------------------------
-- Graphs, orders and cycles
-- ---------------------------------------------------------------------------

/-- Nodes and edges are there once, and the ends of edges are nodes. -/
structure WellFormed (g : Graph α) : Prop where
  nodes_nodup : g.nodes.Nodup
  edges_nodup : g.edges.Nodup
  ends : ∀ {x y}, (x, y) ∈ g.edges → x ∈ g.nodes ∧ y ∈ g.nodes

theorem WellFormed.empty : (Graph.empty : Graph α).WellFormed :=
  ⟨List.nodup_nil, List.nodup_nil, fun h => nomatch h⟩

/-- One node is a predecessor of another. -/
def Leads (g : Graph α) (a b : α) : Prop := (a, b) ∈ g.edges

/-- All predecessors of a member stand before it. -/
def Forwards (g : Graph α) (order : List α) : Prop :=
  ∀ l₁ n l₂, order = l₁ ++ n :: l₂ → ∀ p, g.Leads p n → p ∈ l₁

theorem Forwards.nil : g.Forwards [] := fun l₁ n l₂ h => by simp at h

theorem Forwards.append {order : List α} (h : g.Forwards order)
    (hn : ∀ p, g.Leads p n → p ∈ order) : g.Forwards (order ++ [n]) := by
  intro l₁ m l₂ he p hp
  rcases List.eq_nil_or_concat l₂ with rfl | ⟨l, z, rfl⟩
  · obtain ⟨rfl, hm⟩ := List.append_inj' he rfl
    cases hm
    exact hn p hp
  · rw [List.concat_eq_append, ← List.cons_append, ← List.append_assoc] at he
    exact h l₁ m l (List.append_inj' he rfl).1 p hp

/-- If all members stand behind what they are related to, they stand behind what they are related
to in several steps. -/
theorem mem_of_transGen {r : α → α → Prop} {order : List α}
    (h : ∀ l₁ n l₂, order = l₁ ++ n :: l₂ → ∀ p, r n p → p ∈ l₁) {l₁ l₂ : List α}
    (he : order = l₁ ++ n :: l₂) (hnm : TransGen r n m) : m ∈ l₁ := by
  induction hnm with
  | single hnm => exact h l₁ n l₂ he _ hnm
  | tail _ hkm ih =>
    obtain ⟨k₁, k₂, rfl⟩ := List.append_of_mem ih
    exact List.mem_append_left _ (h k₁ _ (k₂ ++ n :: l₂) (by simp [he]) _ hkm)

/-- A member would otherwise have to stand behind itself. -/
theorem not_transGen_of_mem {r : α → α → Prop} {order : List α}
    (h : ∀ l₁ n l₂, order = l₁ ++ n :: l₂ → ∀ p, r n p → p ∈ l₁) (hn : n ∈ order) :
    ¬ TransGen r n n := fun hcycle => by
  obtain ⟨l₁, l₂, he, hnot⟩ := List.eq_append_cons_of_mem hn
  exact hnot (mem_of_transGen h he hcycle)

/-- A step of the queue only adds to the row of those that have left and those that wait. -/
theorem row_step (left queue joined : List α) (n : α) :
    left ++ [n] ++ (queue ++ joined) = left ++ n :: queue ++ joined := by simp

/-- A closed walk from nodes to predecessors that meets no node twice but the first. -/
def IsCycle (g : Graph α) (cycle : List α) : Prop :=
  ∃ n path, cycle = n :: path ++ [n] ∧ (n :: path).Nodup ∧ cycle.IsChain fun a b => g.Leads b a

theorem transGen_of_isChain {r : α → α → Prop} {path : List α}
    (h : (m :: path ++ [n]).IsChain r) : TransGen r m n := by
  induction path generalizing m with
  | nil => exact .single (by simpa using h)
  | cons k path ih =>
    rw [List.cons_append, List.cons_append, List.isChain_cons_cons] at h
    exact .head h.1 (ih h.2)

theorem IsCycle.exists_transGen {cycle : List α} (h : g.IsCycle cycle) :
    ∃ n, TransGen g.Leads n n := by
  obtain ⟨n, path, rfl, -, hchain⟩ := h
  exact ⟨n, Relation.transGen_swap.mp (transGen_of_isChain hchain)⟩

theorem exists_rel_of_isChain {r : α → α → Prop} {path : List α} (h : (path ++ [n]).IsChain r)
    (hm : m ∈ path) : ∃ k, r m k := by
  induction path with
  | nil => exact nomatch hm
  | cons a path ih =>
    rcases List.mem_cons.mp hm with rfl | hm
    · cases path with
      | nil => exact ⟨n, by simpa using h⟩
      | cons b path =>
        rw [List.cons_append, List.cons_append, List.isChain_cons_cons] at h
        exact ⟨b, h.1⟩
    · exact ih h.tail hm

theorem IsCycle.exists_leads {cycle : List α} (h : g.IsCycle cycle) (hm : m ∈ cycle) :
    ∃ p, g.Leads p m := by
  obtain ⟨n, path, rfl, -, hchain⟩ := h
  have hm' : m ∈ n :: path := by simpa [or_comm, or_assoc] using hm
  exact exists_rel_of_isChain hchain hm'

/-- A search among the nodes of a graph that additions built goes through what they mention. -/
theorem find?_nodes_foldl {β : Type} (p : α → Bool) {add : Graph α → β → Graph α}
    {f : β → List α} (h : ∀ g b, (add g b).nodes.find? p = (g.nodes ++ f b).find? p)
    (l : List β) (g : Graph α) :
    (l.foldl add g).nodes.find? p = (g.nodes ++ l.flatMap f).find? p := by
  induction l generalizing g with
  | nil => simp
  | cons b l ih =>
    rw [List.foldl_cons, ih, List.find?_append, h, ← List.find?_append, List.append_assoc,
      ← List.flatMap_cons]

variable [DecidableEq α]

-- ---------------------------------------------------------------------------
-- What additions keep
-- ---------------------------------------------------------------------------

theorem addNode_of_mem (h : n ∈ g.nodes) : g.addNode n = g := if_pos h

theorem addNode_of_not_mem (h : n ∉ g.nodes) : g.addNode n = ⟨g.nodes ++ [n], g.edges⟩ := if_neg h

@[simp] theorem edges_addNode (g : Graph α) (n : α) : (g.addNode n).edges = g.edges := by
  unfold addNode
  split <;> rfl

/-- What an addition does to nodes and edges. -/
theorem addEdge_eq (g : Graph α) (a b : α) :
    g.addEdge a b = ⟨((g.addNode a).addNode b).nodes,
      if (a, b) ∈ g.edges then g.edges else g.edges ++ [(a, b)]⟩ := by
  unfold addEdge
  dsimp only
  rw [edges_addNode, edges_addNode]
  split
  · next h =>
    rw [← edges_addNode g a, ← edges_addNode (g.addNode a) b]
  · rfl

@[simp] theorem mem_nodes_addNode : m ∈ (g.addNode n).nodes ↔ m ∈ g.nodes ∨ m = n := by
  by_cases h : n ∈ g.nodes
  · rw [addNode_of_mem h]
    refine ⟨.inl, ?_⟩
    rintro (hm | rfl)
    · exact hm
    · exact h
  · simp [addNode_of_not_mem h]

@[simp] theorem mem_nodes_addEdge :
    n ∈ (g.addEdge a b).nodes ↔ n ∈ g.nodes ∨ n = a ∨ n = b := by
  simp [addEdge_eq, or_assoc]

/-- A search among the nodes finds an added node only if it has found none before. -/
theorem find?_nodes_addNode (p : α → Bool) (g : Graph α) (n : α) :
    (g.addNode n).nodes.find? p = (g.nodes ++ [n]).find? p := by
  by_cases hn : n ∈ g.nodes
  · rw [addNode_of_mem hn, List.find?_append]
    cases h : g.nodes.find? p with
    | some m => rfl
    | none =>
      have hpn : ¬ p n = true := List.find?_eq_none.mp h n hn
      simp [hpn]
  · rw [addNode_of_not_mem hn]

theorem find?_nodes_addEdge (p : α → Bool) (g : Graph α) (a b : α) :
    (g.addEdge a b).nodes.find? p = (g.nodes ++ [a, b]).find? p := by
  rw [addEdge_eq, find?_nodes_addNode, List.find?_append, find?_nodes_addNode, ← List.find?_append,
    List.append_assoc, List.singleton_append]

@[simp] theorem mem_edges_addEdge {e : α × α} :
    e ∈ (g.addEdge a b).edges ↔ e ∈ g.edges ∨ e = (a, b) := by
  rw [addEdge_eq]
  dsimp only
  split
  · next h =>
    refine ⟨.inl, ?_⟩
    rintro (he | rfl)
    · exact he
    · exact h
  · simp

theorem WellFormed.addNode (hg : g.WellFormed) : (g.addNode n).WellFormed := by
  by_cases hn : n ∈ g.nodes
  · rwa [addNode_of_mem hn]
  · rw [addNode_of_not_mem hn]
    refine ⟨?_, hg.edges_nodup, fun h => ?_⟩
    · rw [← List.concat_eq_append]
      exact hg.nodes_nodup.concat hn
    · exact (hg.ends h).imp (List.mem_append_left _) (List.mem_append_left _)

theorem WellFormed.addEdge (hg : g.WellFormed) : (g.addEdge a b).WellFormed := by
  have hw : ((g.addNode a).addNode b).WellFormed := hg.addNode.addNode
  refine ⟨?_, ?_, fun {x y} h => ?_⟩
  · rw [addEdge_eq]
    exact hw.nodes_nodup
  · rw [addEdge_eq]
    dsimp only
    split
    · exact hg.edges_nodup
    · next hn =>
      rw [← List.concat_eq_append]
      exact hg.edges_nodup.concat hn
  · rcases mem_edges_addEdge.mp h with h | h
    · simp [hg.ends h]
    · cases h
      simp

/-- A graph that additions built. -/
inductive Built : Graph α → Prop
  | empty : Built .empty
  | addNode {g : Graph α} {n : α} : Built g → Built (g.addNode n)
  | addEdge {g : Graph α} {a b : α} : Built g → Built (g.addEdge a b)

theorem Built.wellFormed (h : g.Built) : g.WellFormed := by
  induction h with
  | empty => exact .empty
  | addNode _ ih => exact ih.addNode
  | addEdge _ ih => exact ih.addEdge

/-- Edges with one end in common are told apart by the other. -/
theorem WellFormed.nodup_ends (hg : g.WellFormed) {near far : α × α → α}
    (hext : ∀ {e f}, near e = near f → far e = far f → e = f) (n : α) :
    ((g.edges.filter (near · = n)).map far).Nodup := by
  refine (hg.edges_nodup.filter _).map_on fun e he f hf hfar => hext ?_ hfar
  simp only [List.mem_filter, decide_eq_true_eq] at he hf
  rw [he.2, hf.2]

theorem WellFormed.nodup_successors (hg : g.WellFormed) (n : α) : (g.successors n).Nodup :=
  hg.nodup_ends Prod.ext n

theorem WellFormed.nodup_predecessors (hg : g.WellFormed) (n : α) : (g.predecessors n).Nodup :=
  hg.nodup_ends (fun h h' => Prod.ext h' h) n

-- ---------------------------------------------------------------------------
-- The queue
-- ---------------------------------------------------------------------------

/-- The state of the queue. Its members and those that have left it are exactly the nodes whose
predecessors have all left. -/
structure Draining (g : Graph α) (left queue : List α) : Prop where
  nodup : (left ++ queue).Nodup
  mem_iff : ∀ {x}, x ∈ left ++ queue ↔ x ∈ g.nodes ∧ ∀ p, g.Leads p x → p ∈ left
  forwards : g.Forwards left

theorem isReady_iff {left : List α} :
    g.isReady left n = true ↔ ∀ p, g.Leads p n → p ∈ left := by
  simp [isReady, mem_predecessors, Leads]

theorem Draining.start (hg : g.WellFormed) : g.Draining [] (g.nodes.filter (g.isReady [])) where
  nodup := by simpa using hg.nodes_nodup.filter _
  mem_iff := by simp [isReady_iff]
  forwards := .nil

/-- The first of the queue leaves, and the successors that this makes ready join. -/
theorem Draining.step (hg : g.WellFormed) {left queue : List α}
    (h : g.Draining left (n :: queue)) :
    g.Draining (left ++ [n]) (queue ++ (g.successors n).filter (g.isReady (left ++ [n]))) := by
  obtain ⟨-, hready⟩ := h.mem_iff.mp (List.mem_append_right left List.mem_cons_self)
  have hnotLeft : n ∉ left := fun hn =>
    List.disjoint_of_nodup_append h.nodup hn List.mem_cons_self
  refine ⟨?_, ?_, h.forwards.append hready⟩
  · rw [row_step]
    refine h.nodup.append ((hg.nodup_successors n).filter _) fun m hm hs => ?_
    rw [List.mem_filter, mem_successors] at hs
    exact hnotLeft ((h.mem_iff.mp hm).2 n hs.1)
  · intro m
    rw [row_step, List.mem_append, h.mem_iff, List.mem_filter, isReady_iff,
      mem_successors]
    constructor
    · rintro (⟨hm, hall⟩ | ⟨hs, hall⟩)
      · exact ⟨hm, fun p hp => List.mem_append_left _ (hall p hp)⟩
      · exact ⟨(hg.ends hs).2, hall⟩
    · rintro ⟨hm, hall⟩
      by_cases hs : g.Leads n m
      · exact .inr ⟨hs, hall⟩
      · refine .inl ⟨hm, fun p hp => ?_⟩
        rcases List.mem_append.mp (hall p hp) with hp' | hp'
        · exact hp'
        · cases List.mem_singleton.mp hp'
          exact absurd hp hs

/-- What the steps of the queue keep holds when the queue has run empty, and enough steps empty
it. -/
theorem drain_of_step (P : List α → List α → Prop)
    (hdraining : ∀ {left queue}, P left queue → g.Draining left queue)
    (hstep : ∀ {left n queue}, P left (n :: queue) →
      P (left ++ [n]) (queue ++ (g.successors n).filter (g.isReady (left ++ [n]))))
    {count : Nat} {left queue : List α} (h : P left queue)
    (hc : g.nodes.length ≤ count + left.length) : P (g.drain count left queue) [] := by
  induction count generalizing left queue with
  | zero =>
    have hle : (left ++ queue).length ≤ g.nodes.length :=
      (List.subperm_of_subset (hdraining h).nodup
        fun _ hm => ((hdraining h).mem_iff.mp hm).1).length_le
    have hq : queue = [] := List.eq_nil_of_length_eq_zero (by
      rw [List.length_append] at hle; omega)
    subst hq
    exact h
  | succ count ih =>
    cases queue with
    | nil => exact h
    | cons n queue =>
      apply ih (hstep h)
      simp only [List.length_append, List.length_singleton]
      omega

theorem draining_leaving (hg : g.WellFormed) : g.Draining g.leaving [] :=
  drain_of_step g.Draining id (Draining.step hg) (Draining.start hg) (by simp)

-- ---------------------------------------------------------------------------
-- Cycles
-- ---------------------------------------------------------------------------

/-- The step of the search: from a node to the first of its predecessors that is blocked. -/
def StepsBack (g : Graph α) (blocked : List α) (n p : α) : Prop :=
  (g.predecessors n).find? blocked.contains = some p

theorem StepsBack.leads {blocked : List α} {p : α} (h : g.StepsBack blocked n p) : g.Leads p n :=
  mem_predecessors.mp (List.mem_of_find?_eq_some h)

theorem StepsBack.mem {blocked : List α} {p : α} (h : g.StepsBack blocked n p) : p ∈ blocked := by
  simpa using List.find?_some h

theorem exists_stepsBack {blocked : List α} (h : ∃ p ∈ blocked, g.Leads p n) :
    ∃ p, g.StepsBack blocked n p := by
  obtain ⟨p, hp, hpn⟩ := h
  exact Option.isSome_iff_exists.mp
    (List.find?_isSome.mpr ⟨p, mem_predecessors.mpr hpn, by simpa using hp⟩)

/-- A cycle is where a walk back from the first blocked node meets a node for the second time;
the walk stays among the blocked nodes and meets none of them twice before that. -/
def EndsWalk (g : Graph α) (blocked cycle : List α) : Prop :=
  ∃ front n path, cycle = n :: path ++ [n] ∧ (front ++ n :: path).Nodup ∧
    front ++ n :: path ⊆ blocked ∧ (front ++ cycle).head? = blocked.head? ∧
    (front ++ cycle).IsChain (g.StepsBack blocked)

theorem EndsWalk.isCycle {blocked cycle : List α} (h : g.EndsWalk blocked cycle) :
    g.IsCycle cycle := by
  obtain ⟨front, n, path, rfl, hnodup, -, -, hchain⟩ := h
  exact ⟨n, path, rfl, (List.nodup_append.mp hnodup).2.1,
    hchain.right_of_append.imp fun _ _ hab => hab.leads⟩

/-- The state of the search. The nodes walked so far are blocked and none of the `unvisited`, and
the walk has stepped from each to the next, and from the last one to `n`. -/
structure Chasing (g : Graph α) (blocked unvisited walked : List α) (n : α) : Prop where
  mem : n ∈ blocked
  walked_nodup : walked.Nodup
  walked_subset : walked ⊆ blocked
  unvisited_nodup : unvisited.Nodup
  mem_iff : ∀ {x}, x ∈ unvisited ↔ x ∈ blocked ∧ x ∉ walked
  start : (walked ++ [n]).head? = blocked.head?
  chain : (walked ++ [n]).IsChain (g.StepsBack blocked)

theorem Chasing.endsWalk {blocked unvisited walked : List α}
    (h : g.Chasing blocked unvisited walked n) (hn : n ∉ unvisited) :
    g.EndsWalk blocked (walked.dropWhile (· ≠ n) ++ [n]) := by
  have hw : n ∈ walked := by
    by_contra hw
    exact hn (h.mem_iff.mpr ⟨h.mem, hw⟩)
  obtain ⟨l₁, l₂, rfl, hl⟩ := List.eq_append_cons_of_mem hw
  have hd : (l₁ ++ n :: l₂).dropWhile (· ≠ n) = n :: l₂ := by
    rw [List.dropWhile_append_of_pos (by
      intro x hx
      simpa using fun hxn : x = n => hl (hxn ▸ hx))]
    simp
  rw [hd]
  refine ⟨l₁, n, l₂, rfl, h.walked_nodup, h.walked_subset, ?_, ?_⟩
  · rw [← List.append_assoc]
    exact h.start
  · rw [← List.append_assoc]
    exact h.chain

/-- A walk among nodes that each have a predecessor among them ends in a cycle. -/
theorem Chasing.chase {blocked unvisited walked : List α} (h : g.Chasing blocked unvisited walked n)
    (hb : ∀ m ∈ blocked, ∃ p, g.StepsBack blocked m p) :
    g.EndsWalk blocked (g.chase blocked unvisited walked n) := by
  fun_induction Graph.chase g blocked unvisited walked n with
  | case1 unvisited walked n hn p hp ih =>
    have hstep : g.StepsBack blocked n p := hp
    refine ih ⟨hstep.mem, ?_, ?_, h.unvisited_nodup.erase n, fun {m} => ?_, ?_, ?_⟩
    · rw [← List.concat_eq_append]
      exact h.walked_nodup.concat (h.mem_iff.mp hn).2
    · exact List.append_subset.mpr ⟨h.walked_subset, by simpa using h.mem⟩
    · rw [h.unvisited_nodup.mem_erase_iff, h.mem_iff, List.mem_append, List.mem_singleton]
      tauto
    · rw [List.head?_append_of_ne_nil _ (by simp)]
      exact h.start
    · refine h.chain.append (.singleton p) ?_
      simpa using hstep
  | case2 unvisited walked n hn hp =>
    obtain ⟨p, hstep⟩ := hb n h.mem
    exact nomatch hp.symm.trans hstep
  | case3 unvisited walked n hn => exact h.endsWalk hn

theorem endsWalk_findCycle {blocked : List α} (hne : blocked ≠ []) (hnodup : blocked.Nodup)
    (hb : ∀ m ∈ blocked, ∃ p, g.StepsBack blocked m p) :
    g.EndsWalk blocked (g.findCycle blocked).nodes := by
  cases blocked with
  | nil => exact absurd rfl hne
  | cons n rest =>
    refine Chasing.chase ⟨List.mem_cons_self, List.nodup_nil, List.nil_subset _, hnodup, ?_, ?_, ?_⟩
      hb
    · simp
    · simp
    · simp

-- ---------------------------------------------------------------------------
-- The sorted nodes
-- ---------------------------------------------------------------------------

/-- The nodes that never leave the queue. -/
def blocked (g : Graph α) : List α := g.nodes.filter fun n => !g.leaving.contains n

theorem mem_blocked : n ∈ g.blocked ↔ n ∈ g.nodes ∧ n ∉ g.leaving := by simp [blocked]

/-- A node that never becomes ready has a predecessor that never leaves. -/
theorem exists_stepsBack_of_mem_blocked (hg : g.WellFormed) (hm : m ∈ g.blocked) :
    ∃ p, g.StepsBack g.blocked m p := by
  obtain ⟨hnode, hstays⟩ := mem_blocked.mp hm
  have hnot : ¬ ∀ p, g.Leads p m → p ∈ g.leaving := fun hall =>
    hstays (by simpa using (draining_leaving hg).mem_iff.mpr ⟨hnode, hall⟩)
  push Not at hnot
  obtain ⟨p, hp, hleft⟩ := hnot
  exact exists_stepsBack ⟨p, mem_blocked.mpr ⟨(hg.ends hp).1, hleft⟩, hp⟩

theorem subperm_leaving (hg : g.WellFormed) : g.leaving.Subperm g.nodes := by
  have h := draining_leaving hg
  exact List.subperm_of_subset (by simpa using h.nodup)
    fun n hn => (h.mem_iff.mp (by simpa using hn)).1

theorem sort_eq_ok_iff {order : List α} :
    g.sort = .ok order ↔ g.leaving.length = g.nodes.length ∧ order = g.leaving := by
  unfold sort
  dsimp only
  split
  · next hlen => simp [hlen, eq_comm]
  · next hlen => simp [hlen]

/-- A reported cycle is the end of the walk back from the first node that never leaves. -/
theorem endsWalk_of_sort_eq_error (hg : g.WellFormed) {cycle : Cycle α}
    (h : g.sort = .error cycle) : g.EndsWalk g.blocked cycle.nodes := by
  unfold sort at h
  dsimp only at h
  split at h
  · cases h
  · next hlen =>
    cases h
    refine endsWalk_findCycle ?_ (hg.nodes_nodup.filter _)
      fun m hm => exists_stepsBack_of_mem_blocked hg hm
    intro hnil
    have hall : g.nodes ⊆ g.leaving := by
      intro n hn
      by_contra hc
      have hb : n ∈ g.blocked := mem_blocked.mpr ⟨hn, hc⟩
      rw [hnil] at hb
      exact nomatch hb
    have hle := (List.subperm_of_subset hg.nodes_nodup hall).length_le
    exact hlen (le_antisymm (subperm_leaving hg).length_le hle)

theorem perm_of_sort (hg : g.WellFormed) {order : List α} (h : g.sort = .ok order) :
    order.Perm g.nodes ∧ g.Forwards order := by
  obtain ⟨hlen, rfl⟩ := sort_eq_ok_iff.mp h
  exact ⟨(subperm_leaving hg).perm_of_length_le hlen.ge, (draining_leaving hg).forwards⟩

theorem sort_spec (hg : g.WellFormed) :
    (∃ order, g.sort = .ok order ∧ order.Perm g.nodes ∧ g.Forwards order) ∨
      (∃ cycle, g.sort = .error cycle ∧ g.IsCycle cycle.nodes) := by
  cases h : g.sort with
  | ok order => exact .inl ⟨order, rfl, perm_of_sort hg h⟩
  | error cycle => exact .inr ⟨cycle, rfl, (endsWalk_of_sort_eq_error hg h).isCycle⟩

/-- Sorting fails exactly if some node leads back to itself. -/
theorem exists_sort_eq_error_iff (hg : g.WellFormed) :
    (∃ cycle, g.sort = .error cycle) ↔ ∃ n, TransGen g.Leads n n := by
  rcases sort_spec hg with ⟨order, hsort, hperm, hforwards⟩ | ⟨cycle, hsort, hcycle⟩
  · refine ⟨fun ⟨cycle, h⟩ => (nomatch hsort.symm.trans h), fun ⟨n, hn⟩ => ?_⟩
    have hmem : n ∈ order := by
      obtain ⟨m, hnm, -⟩ := Relation.TransGen.head'_iff.mp hn
      exact hperm.symm.subset (hg.ends hnm).1
    exact absurd (Relation.transGen_swap.mpr hn) (not_transGen_of_mem hforwards hmem)
  · exact ⟨fun _ => hcycle.exists_transGen, fun _ => ⟨cycle, hsort⟩⟩

end ContractLinker.Graph
