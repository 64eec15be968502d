import ContractLinker.Proofs.Graph.Construction
import ContractLinker.Proofs.Table

/-!
# Sorting by counters

Whether a node is ready can be asked of its predecessors again and again, as `drain` does, or
counted: every node has a counter of the predecessors that are still to leave, a node that leaves
counts down those of its successors, and whatever comes to none joins the queue. `arrange` does so
on the tables of an `Adjacency`. While the counters are `Accurate` the two queues are the same, and
a step of the queue keeps them so; `exists_arrange`: after any additions, no row or counter is ever
missing, and both find the same order or the same nodes that never leave.
-/

namespace ContractLinker.Graph

variable {α : Type} [DecidableEq α] {g : Graph α} {left queue row : List α} {m n : α}

-- ---------------------------------------------------------------------------
-- Counters
-- ---------------------------------------------------------------------------

namespace Adjacency

/-- A counter for each node, of its predecessors. -/
def counters (r : Adjacency α) : Option (Table α Int) := do
  let rows ← r.nodes.mapM fun n => (r.predecessors.get? n).map fun row => (n, (row.length : Int))
  return .ofList rows

/-- Counts down nodes one by one; those that come to none join the queue. -/
def countDown : Table α Int → List α → List α → Option (Table α Int × List α)
  | counters, queue, [] => some (counters, queue)
  | counters, queue, n :: row => do
    let count ← counters.get? n
    countDown (counters.insert n (count - 1))
      (if count - 1 = 0 then queue ++ [n] else queue) row

/-- Lets up to `count` nodes leave the queue, and returns all that have left, and the counters. -/
def drain (r : Adjacency α) : (count : Nat) → (counters : Table α Int) → (left queue : List α) →
    Option (List α × Table α Int)
  | 0, counters, left, _ => some (left, counters)
  | _ + 1, counters, left, [] => some (left, counters)
  | count + 1, counters, left, n :: queue => do
    let row ← r.successors.get? n
    let (counters, queue) ← countDown counters queue row
    r.drain count counters (left ++ [n]) queue

/-- The nodes in the order in which they leave the queue, or those that are never ready. -/
def arrange (r : Adjacency α) : Option (Except (List α) (List α)) := do
  let counters ← r.counters
  let (order, counters) ←
    r.drain r.nodes.length counters [] (r.nodes.filter fun n => counters.get? n = some 0)
  if order.length = r.nodes.length then return .ok order
  else return .error (r.nodes.filter fun n => (counters.get? n).any (0 < ·))

end Adjacency

-- ---------------------------------------------------------------------------
-- Predecessors that are still to leave
-- ---------------------------------------------------------------------------

/-- The number of predecessors that have not left yet. -/
def waiting (g : Graph α) (left : List α) (n : α) : Nat :=
  ((g.predecessors n).filter (· ∉ left)).length

theorem waiting_nil (g : Graph α) (n : α) : g.waiting [] n = (g.predecessors n).length := by
  simp [waiting]

theorem waiting_eq_zero_iff : g.waiting left n = 0 ↔ g.isReady left n = true := by
  simp [waiting, isReady]

/-- The one that leaves is taken out of those that are waited for. -/
theorem filter_not_mem_concat (hg : g.WellFormed) (left : List α) (m n : α) :
    (g.predecessors m).filter (· ∉ left ++ [n]) =
      ((g.predecessors m).filter (· ∉ left)).erase n := by
  rw [((hg.nodup_predecessors m).filter _).erase_eq_filter, List.filter_filter]
  refine List.filter_congr fun p _ => ?_
  by_cases hp : p ∈ left <;> by_cases hn : p = n <;> simp [hp, hn]

theorem waiting_concat_of_leads (hg : g.WellFormed) (hn : n ∉ left) (h : g.Leads n m) :
    g.waiting left m = g.waiting (left ++ [n]) m + 1 := by
  have hmem : n ∈ (g.predecessors m).filter (· ∉ left) :=
    List.mem_filter.mpr ⟨mem_predecessors.mpr h, by simpa using hn⟩
  rw [waiting, waiting, filter_not_mem_concat hg, List.length_erase_add_one hmem]

theorem waiting_concat_of_not_leads (hg : g.WellFormed) (h : ¬ g.Leads n m) :
    g.waiting (left ++ [n]) m = g.waiting left m := by
  have hmem : n ∉ (g.predecessors m).filter (· ∉ left) := fun hn =>
    h (mem_predecessors.mp (List.mem_filter.mp hn).1)
  rw [waiting, waiting, filter_not_mem_concat hg, List.erase_of_not_mem hmem]

/-- Counters say of each node how many predecessors are still to leave. -/
def Accurate (g : Graph α) (left : List α) (counters : Table α Int) : Prop :=
  ∀ n, counters.get? n = if n ∈ g.nodes then some (g.waiting left n : Int) else none

theorem Accurate.get? {counters : Table α Int} (h : g.Accurate left counters) (hn : n ∈ g.nodes) :
    counters.get? n = some (g.waiting left n : Int) := by
  rw [h n, if_pos hn]

-- ---------------------------------------------------------------------------
-- The same queue
-- ---------------------------------------------------------------------------

namespace Adjacency

variable {r : Adjacency α} {counters : Table α Int}

theorem mapM_eq_some {α β : Type} {f : α → Option β} {k : α → β} {l : List α}
    (h : ∀ x ∈ l, f x = some (k x)) : l.mapM f = some (l.map k) := by
  induction l with
  | nil => rfl
  | cons x l ih =>
    obtain ⟨hx, hl⟩ := List.forall_mem_cons.mp h
    simp [hx, ih hl]

/-- At first nobody has left. -/
theorem exists_counters (h : r.Represents g) (hg : g.WellFormed) :
    ∃ counters, r.counters = some counters ∧ g.Accurate [] counters := by
  have hrows : r.nodes.mapM (fun n =>
      (r.predecessors.get? n).map fun row => (n, (row.length : Int))) =
        some (g.nodes.map fun n => (n, ((g.predecessors n).length : Int))) := by
    rw [h.nodes]
    refine mapM_eq_some fun n hn => ?_
    rw [h.predecessors n, rows_finish, predecessors?, if_pos hn]
    rfl
  refine ⟨_, by rw [counters, hrows]; rfl, fun n => ?_⟩
  have hkeys : ((g.nodes.map fun n => (n, ((g.predecessors n).length : Int))).map
      Prod.fst).Nodup := by
    simpa [Function.comp_def] using hg.nodes_nodup
  rw [Table.get?, Table.entries_ofList hkeys]
  by_cases hn : n ∈ g.nodes
  · rw [if_pos hn, waiting_nil, Table.find_eq_some_iff hkeys]
    exact List.mem_map.mpr ⟨n, hn, rfl⟩
  · rw [if_neg hn, ← Option.not_isSome_iff_eq_none, Table.find_isSome_iff]
    simpa using hn

/-- What counting down does to the counters and to the queue. -/
theorem countDown_eq {count : α → Int} (hrow : row.Nodup)
    (hcount : ∀ n ∈ row, counters.get? n = some (count n)) (queue : List α) :
    ∃ counters', countDown counters queue row =
        some (counters', queue ++ row.filter fun n => count n = 1) ∧
      ∀ n, counters'.get? n = if n ∈ row then some (count n - 1) else counters.get? n := by
  induction row generalizing counters queue with
  | nil => exact ⟨counters, by simp [countDown], by simp⟩
  | cons n row ih =>
    obtain ⟨hn, hrest⟩ := List.forall_mem_cons.mp hcount
    obtain ⟨hnew, hrow⟩ := List.nodup_cons.mp hrow
    have hinsert : ∀ m ∈ row, (counters.insert n (count n - 1)).get? m = some (count m) := by
      intro m hm
      have hmn : m ≠ n := fun he => hnew (he ▸ hm)
      rw [Table.get?_insert, if_neg hmn, hrest m hm]
    obtain ⟨counters', hdown, hget⟩ := ih hrow hinsert
      (if count n - 1 = 0 then queue ++ [n] else queue)
    refine ⟨counters', ?_, fun m => ?_⟩
    · rw [countDown, hn, Option.bind_eq_bind, Option.bind_some, hdown, List.filter_cons]
      by_cases hone : count n = 1
      · simp [hone]
      · have hzero : ¬ count n - 1 = 0 := by omega
        simp [hone, hzero]
    · rw [hget, Table.get?_insert]
      by_cases hmn : m = n
      · subst hmn
        simp [hnew]
      · simp [hmn]

/-- A node that leaves keeps the counters accurate, and those join that are ready now. -/
theorem countDown_successors (hg : g.WellFormed) (hdraining : g.Draining left (n :: queue))
    (hcounters : g.Accurate left counters) :
    ∃ counters', countDown counters queue (g.successors n) =
        some (counters', queue ++ (g.successors n).filter (g.isReady (left ++ [n]))) ∧
      g.Accurate (left ++ [n]) counters' := by
  have hleft : n ∉ left := fun hn =>
    List.disjoint_of_nodup_append hdraining.nodup hn List.mem_cons_self
  have hone : ∀ m ∈ g.successors n, g.waiting left m = g.waiting (left ++ [n]) m + 1 :=
    fun m hm => waiting_concat_of_leads hg hleft (mem_successors.mp hm)
  have hnode : ∀ m ∈ g.successors n, m ∈ g.nodes := fun m hm =>
    (hg.ends (mem_successors.mp hm)).2
  obtain ⟨counters', hdown, hget⟩ := countDown_eq (hg.nodup_successors n)
    (fun m hm => hcounters.get? (hnode m hm)) queue
  refine ⟨counters', ?_, fun m => ?_⟩
  · have hjoined : (g.successors n).filter (fun m => (g.waiting left m : Int) = 1) =
        (g.successors n).filter (g.isReady (left ++ [n])) := by
      refine List.filter_congr fun m hm => ?_
      rw [Bool.eq_iff_iff, decide_eq_true_eq, ← waiting_eq_zero_iff, hone m hm]
      omega
    rw [hdown, hjoined]
  · rw [hget]
    by_cases hm : m ∈ g.successors n
    · rw [if_pos hm, if_pos (hnode m hm), hone m hm, Int.natCast_succ, Int.add_sub_cancel]
    · rw [if_neg hm, hcounters m, waiting_concat_of_not_leads hg fun h => hm (mem_successors.mpr h)]

/-- Counting down and asking all predecessors make the same nodes leave. -/
theorem drain_eq (h : r.Represents g) (hg : g.WellFormed) (hdraining : g.Draining left queue)
    (hcounters : g.Accurate left counters) (count : Nat) :
    ∃ counters', r.drain count counters left queue = some (g.drain count left queue, counters') ∧
      g.Accurate (g.drain count left queue) counters' := by
  induction count generalizing counters left queue with
  | zero => exact ⟨counters, rfl, hcounters⟩
  | succ count ih =>
    cases queue with
    | nil => exact ⟨counters, rfl, hcounters⟩
    | cons n queue =>
      have hn : n ∈ g.nodes := (hdraining.mem_iff.mp (List.mem_append_right _ (by simp))).1
      have hrow : r.successors.get? n = some (g.successors n) := by
        rw [h.successors n, rows_start, successors?, if_pos hn]
      obtain ⟨between, hdown, hbetween⟩ := countDown_successors hg hdraining hcounters
      obtain ⟨counters', hdrain, haccurate⟩ := ih (hdraining.step hg) hbetween
      refine ⟨counters', ?_, haccurate⟩
      rw [drain, hrow, Option.bind_eq_bind, Option.bind_some, hdown, Option.bind_eq_bind,
        Option.bind_some]
      exact hdrain

/-- The order that counters give is the order of the graph; without one they show the nodes from
which a cycle is searched. -/
theorem arrange_eq (h : r.Represents g) (hg : g.WellFormed) :
    ∃ found, r.arrange = some found ∧ g.sort = found.mapError g.findCycle := by
  obtain ⟨start, hstart, haccurate⟩ := exists_counters h hg
  have hready : g.nodes.filter (fun n => start.get? n = some 0) =
      g.nodes.filter (g.isReady []) := by
    refine List.filter_congr fun n hn => ?_
    rw [Bool.eq_iff_iff, decide_eq_true_eq, haccurate.get? hn, ← waiting_eq_zero_iff]
    simp
  obtain ⟨counters, hdrain, hcounters⟩ : ∃ counters,
      r.drain g.nodes.length start [] (g.nodes.filter (g.isReady [])) =
        some (g.leaving, counters) ∧ g.Accurate g.leaving counters :=
    drain_eq h hg (.start hg) haccurate g.nodes.length
  have hblocked : g.nodes.filter (fun n => (counters.get? n).any (0 < ·)) = g.blocked := by
    refine List.filter_congr fun n hn => ?_
    have hleft : n ∈ g.leaving ↔ g.waiting g.leaving n = 0 := by
      have hiff := (draining_leaving hg).mem_iff (x := n)
      rw [List.append_nil] at hiff
      rw [hiff, waiting_eq_zero_iff, isReady_iff, and_iff_right hn]
    simp [hcounters.get? hn, hleft, Nat.pos_iff_ne_zero]
  refine ⟨if g.leaving.length = g.nodes.length then .ok g.leaving else .error g.blocked, ?_, ?_⟩
  · rw [arrange, hstart, h.nodes, Option.bind_eq_bind, Option.bind_some, hready, hdrain,
      Option.bind_eq_bind, Option.bind_some]
    dsimp only
    rw [hblocked]
    split <;> rfl
  · rw [sort]
    split <;> rfl

/-- After any additions, counters find the order of the graph, or the nodes from which it searches a
cycle. -/
theorem exists_arrange (l : List (Addition α)) :
    ∃ r found, ofAdditions l = some r ∧ r.arrange = some found ∧
      (Graph.ofAdditions l).sort = found.mapError (Graph.ofAdditions l).findCycle := by
  obtain ⟨r, hr, hrep⟩ := exists_represents l
  obtain ⟨found, hfound, hsort⟩ := arrange_eq hrep (built_ofAdditions l).wellFormed
  exact ⟨r, found, hr, hfound, hsort⟩

/-- A node with two predecessors joins behind the second; two that wait for each other never do. -/
example : let arranged (l : List (Addition Int)) := (ofAdditions l).bind arrange
    arranged [.edge 1 4, .edge 2 4, .edge 2 3] = some (.ok [1, 2, 4, 3]) ∧
      arranged [.edge 1 2, .edge 2 1, .node 3] = some (.error [1, 2]) :=
  ⟨rfl, rfl⟩

end Adjacency

end ContractLinker.Graph
