import ContractLinker.Proofs.Graph.Order
import ContractLinker.Table
import Mathlib.Data.Finset.Insert

/-!
# Building a graph

`additions_recorded`: what a graph says after any row of additions. Its nodes, and the successors
and predecessors of each, list what was added, each once and in the order of its first addition, and
additions that are made again leave no trace. The same is true of an `Adjacency`, which keeps the
nodes, both tables of neighbours and the set of edges side by side: each addition keeps the four in
step, and never asks for a row that is not there.
-/

namespace ContractLinker.Graph

variable {α : Type}

-- ---------------------------------------------------------------------------
-- Rows in the order of first mention
-- ---------------------------------------------------------------------------

section
variable [BEq α] [LawfulBEq α] {row said : List α} {x : α}

/-- A row lists what was said, each once, in the order in which it was said first. -/
structure ListsFirst {α : Type} [BEq α] (row said : List α) : Prop where
  nodup : row.Nodup
  mem_iff : ∀ {x}, x ∈ row ↔ x ∈ said
  idxOf_lt_iff : ∀ {x y}, x ∈ row → y ∈ row →
    (row.idxOf x < row.idxOf y ↔ said.idxOf x < said.idxOf y)

theorem ListsFirst.again (h : ListsFirst row said) (hx : x ∈ said) :
    ListsFirst row (said ++ [x]) where
  nodup := h.nodup
  mem_iff := by
    intro y
    rw [List.mem_append, h.mem_iff, List.mem_singleton]
    exact ⟨.inl, fun hy => hy.elim id fun he => he ▸ hx⟩
  idxOf_lt_iff := by
    intro y z hy hz
    rw [List.idxOf_append_of_mem (h.mem_iff.mp hy), List.idxOf_append_of_mem (h.mem_iff.mp hz)]
    exact h.idxOf_lt_iff hy hz

theorem ListsFirst.new (h : ListsFirst row said) (hx : x ∉ said) :
    ListsFirst (row ++ [x]) (said ++ [x]) where
  nodup := by
    rw [← List.concat_eq_append]
    exact h.nodup.concat fun hm => hx (h.mem_iff.mp hm)
  mem_iff := by simp [h.mem_iff]
  idxOf_lt_iff := by
    have hrow : x ∉ row := fun hm => hx (h.mem_iff.mp hm)
    -- What is new stands behind all else, in the row as in what was said.
    have hend : ∀ {l : List α}, x ∉ l → (l ++ [x]).idxOf x = l.length := fun hl => by
      rw [List.idxOf_append_of_notMem hl, List.idxOf_cons_self, Nat.add_zero]
    have hold : ∀ {l : List α} {y}, y ∈ l →
        (l ++ [x]).idxOf y = l.idxOf y ∧ l.idxOf y < l.length := fun hy =>
      ⟨List.idxOf_append_of_mem hy, List.idxOf_lt_length_of_mem hy⟩
    intro y z hy hz
    rcases List.mem_append.mp hy with hy | hy
    · obtain ⟨hy₁, hlt₁⟩ := hold hy
      obtain ⟨hy₂, hlt₂⟩ := hold (h.mem_iff.mp hy)
      rcases List.mem_append.mp hz with hz | hz
      · rw [hy₁, hy₂, (hold hz).1, (hold (h.mem_iff.mp hz)).1]
        exact h.idxOf_lt_iff hy hz
      · obtain rfl := List.mem_singleton.mp hz
        rw [hy₁, hy₂, hend hrow, hend hx]
        exact ⟨fun _ => hlt₂, fun _ => hlt₁⟩
    · obtain rfl := List.mem_singleton.mp hy
      rcases List.mem_append.mp hz with hz | hz
      · obtain ⟨hz₁, hlt₁⟩ := hold hz
        obtain ⟨hz₂, hlt₂⟩ := hold (h.mem_iff.mp hz)
        rw [hz₁, hz₂, hend hrow, hend hx]
        exact ⟨fun hlt => absurd hlt hlt₁.asymm, fun hlt => absurd hlt hlt₂.asymm⟩
      · obtain rfl := List.mem_singleton.mp hz
        exact ⟨fun hlt => absurd hlt (lt_irrefl _), fun hlt => absurd hlt (lt_irrefl _)⟩

theorem eraseDups_concat_of_mem (h : x ∈ said) : (said ++ [x]).eraseDups = said.eraseDups := by
  simp [List.eraseDups_append, List.removeAll, h]

theorem eraseDups_concat_of_not_mem (h : x ∉ said) :
    (said ++ [x]).eraseDups = said.eraseDups ++ [x] := by
  simp [List.eraseDups_append, List.removeAll, h, List.eraseDups_cons]

theorem listsFirst_eraseDups (said : List α) : ListsFirst said.eraseDups said := by
  induction said using List.reverseRecOn with
  | nil => exact ⟨List.nodup_nil, Iff.rfl, fun hx => nomatch hx⟩
  | append_singleton said x ih =>
    by_cases hx : x ∈ said
    · rw [eraseDups_concat_of_mem hx]
      exact ih.again hx
    · rw [eraseDups_concat_of_not_mem hx]
      exact ih.new hx

/-- What no repetition at the end changes, no repetition changes. -/
theorem apply_eraseDups {β : Type} {f : List α → β}
    (hstep : ∀ {l m : List α}, f l = f m → ∀ x, f (l ++ [x]) = f (m ++ [x]))
    (hrepeat : ∀ {l : List α} {x : α}, x ∈ l → f (l ++ [x]) = f l) (l : List α) :
    f l.eraseDups = f l := by
  induction l using List.reverseRecOn with
  | nil => rfl
  | append_singleton l x ih =>
    by_cases hx : x ∈ l
    · rw [eraseDups_concat_of_mem hx, hrepeat hx, ih]
    · rw [eraseDups_concat_of_not_mem hx]
      exact hstep ih x

end

-- ---------------------------------------------------------------------------
-- Neighbours
-- ---------------------------------------------------------------------------

/-- One end of an edge, and the other one. -/
structure Side (α : Type) where
  near : α × α → α
  far : α × α → α
  ext : ∀ {e f}, near e = near f → far e = far f → e = f

def Side.start : Side α := ⟨Prod.fst, Prod.snd, fun h h' => Prod.ext h h'⟩

def Side.finish : Side α := ⟨Prod.snd, Prod.fst, fun h h' => Prod.ext h' h⟩

section
variable [DecidableEq α] (side : Side α) {edges : List (α × α)} {e : α × α} {n : α}

/-- The far ends of the edges that have a node as their near end. -/
def neighbours (edges : List (α × α)) (n : α) : List α :=
  (edges.filter (side.near · = n)).map side.far

theorem neighbours_concat (edges : List (α × α)) (e : α × α) (n : α) :
    neighbours side (edges ++ [e]) n =
      neighbours side edges n ++ if side.near e = n then [side.far e] else [] := by
  by_cases h : side.near e = n <;> simp [neighbours, h]

theorem far_mem_neighbours_iff : side.far e ∈ neighbours side edges (side.near e) ↔ e ∈ edges := by
  unfold neighbours
  rw [List.mem_map]
  constructor
  · rintro ⟨f, hf, hfar⟩
    obtain ⟨hmem, hnear⟩ := List.mem_filter.mp hf
    obtain rfl := side.ext (of_decide_eq_true hnear) hfar
    exact hmem
  · intro he
    exact ⟨e, List.mem_filter.mpr ⟨he, decide_eq_true rfl⟩, rfl⟩

/-- The neighbours come up in the order in which their edges do. -/
theorem neighbours_eraseDups (edges : List (α × α)) (n : α) :
    neighbours side edges.eraseDups n = (neighbours side edges n).eraseDups := by
  induction edges using List.reverseRecOn with
  | nil => rfl
  | append_singleton edges e ih =>
    rw [neighbours_concat]
    by_cases hn : side.near e = n
    · subst hn
      rw [if_pos rfl]
      by_cases he : e ∈ edges
      · rw [eraseDups_concat_of_mem he, ih,
          eraseDups_concat_of_mem ((far_mem_neighbours_iff side).mpr he)]
      · rw [eraseDups_concat_of_not_mem he, neighbours_concat, if_pos rfl, ih,
          eraseDups_concat_of_not_mem fun h => he ((far_mem_neighbours_iff side).mp h)]
    · rw [if_neg hn, List.append_nil, ← ih]
      by_cases he : e ∈ edges
      · rw [eraseDups_concat_of_mem he]
      · rw [eraseDups_concat_of_not_mem he, neighbours_concat, if_neg hn, List.append_nil]

/-- The neighbours of a node; what is no node has none to ask for. -/
def rows (g : Graph α) (n : α) : Option (List α) :=
  if n ∈ g.nodes then some (neighbours side g.edges n) else none

variable {g : Graph α}

theorem rows_start (g : Graph α) : rows .start g = g.successors? := rfl

theorem rows_finish (g : Graph α) : rows .finish g = g.predecessors? := rfl

theorem isSome_rows_iff : (rows side g n).isSome ↔ n ∈ g.nodes := by
  simp [rows]

theorem rows_eq_some_iff {row : List α} :
    rows side g n = some row ↔ n ∈ g.nodes ∧ row = neighbours side g.edges n := by
  simp [rows, eq_comm]

theorem exists_rows_iff (hnear : e ∈ g.edges → side.near e ∈ g.nodes) :
    (∃ row, rows side g (side.near e) = some row ∧ side.far e ∈ row) ↔ e ∈ g.edges := by
  constructor
  · rintro ⟨row, hrow, hfar⟩
    obtain ⟨-, rfl⟩ := (rows_eq_some_iff side).mp hrow
    exact (far_mem_neighbours_iff side).mp hfar
  · intro he
    exact ⟨_, (rows_eq_some_iff side).mpr ⟨hnear he, rfl⟩, (far_mem_neighbours_iff side).mpr he⟩

end

-- ---------------------------------------------------------------------------
-- Additions
-- ---------------------------------------------------------------------------

inductive Addition (α : Type)
  | node (n : α)
  | edge (a b : α)
  deriving DecidableEq

/-- The nodes that an addition mentions, which it adds where they are missing. -/
def Addition.mentioned : Addition α → List α
  | .node n => [n]
  | .edge a b => [a, b]

def Addition.edge? : Addition α → Option (α × α)
  | .node _ => none
  | .edge a b => some (a, b)

theorem mem_filterMap_edge? {l : List (Addition α)} {a b : α} :
    (a, b) ∈ l.filterMap Addition.edge? ↔ .edge a b ∈ l := by
  rw [List.mem_filterMap]
  constructor
  · rintro ⟨c, hc, he⟩
    cases c with
    | node n => cases he
    | edge a' b' => cases he; exact hc
  · exact fun h => ⟨_, h, rfl⟩

variable [DecidableEq α] {g : Graph α} {l : List (Addition α)} {c : Addition α} {a b n : α}

def add (g : Graph α) : Addition α → Graph α
  | .node n => g.addNode n
  | .edge a b => g.addEdge a b

def ofAdditions (l : List (Addition α)) : Graph α := l.foldl add .empty

theorem ofAdditions_concat (l : List (Addition α)) (c : Addition α) :
    ofAdditions (l ++ [c]) = (ofAdditions l).add c := by
  simp [ofAdditions]

theorem built_ofAdditions (l : List (Addition α)) : (ofAdditions l).Built := by
  induction l using List.reverseRecOn with
  | nil => exact .empty
  | append_singleton l c ih =>
    rw [ofAdditions_concat]
    cases c with
    | node n => exact ih.addNode
    | edge a b => exact ih.addEdge

theorem nodes_addNode {said : List α} (h : g.nodes = said.eraseDups) (n : α) :
    (g.addNode n).nodes = (said ++ [n]).eraseDups := by
  by_cases hn : n ∈ said
  · rw [eraseDups_concat_of_mem hn, ← h, addNode_of_mem (by simp [h, hn])]
  · rw [eraseDups_concat_of_not_mem hn, ← h, addNode_of_not_mem (by simp [h, hn])]

/-- A graph has the nodes that were mentioned. -/
theorem nodes_ofAdditions (l : List (Addition α)) :
    (ofAdditions l).nodes = (l.flatMap Addition.mentioned).eraseDups := by
  induction l using List.reverseRecOn with
  | nil => rfl
  | append_singleton l c ih =>
    rw [ofAdditions_concat, List.flatMap_append, List.flatMap_singleton]
    cases c with
    | node n => exact nodes_addNode ih n
    | edge a b =>
      rw [add, addEdge_eq]
      exact (nodes_addNode (nodes_addNode ih a) b).trans (by simp [Addition.mentioned])

theorem edges_ofAdditions (l : List (Addition α)) :
    (ofAdditions l).edges = (l.filterMap Addition.edge?).eraseDups := by
  induction l using List.reverseRecOn with
  | nil => rfl
  | append_singleton l c ih =>
    rw [ofAdditions_concat, List.filterMap_append]
    cases c with
    | node n =>
      have hnone : [Addition.node n].filterMap Addition.edge? = [] := rfl
      rw [add, edges_addNode, hnone, List.append_nil, ih]
    | edge a b =>
      have hedge : [Addition.edge a b].filterMap Addition.edge? = [(a, b)] := rfl
      rw [add, addEdge_eq, hedge]
      by_cases he : (a, b) ∈ l.filterMap Addition.edge?
      · rw [eraseDups_concat_of_mem he, ← ih]
        exact if_pos (ih ▸ List.mem_eraseDups.mpr he)
      · rw [eraseDups_concat_of_not_mem he, ← ih]
        exact if_neg fun hmem => he (List.mem_eraseDups.mp (ih ▸ hmem))

theorem mem_edges_ofAdditions : (a, b) ∈ (ofAdditions l).edges ↔ .edge a b ∈ l := by
  rw [edges_ofAdditions, List.mem_eraseDups, mem_filterMap_edge?]

theorem listsFirst_nodes (l : List (Addition α)) :
    ListsFirst (ofAdditions l).nodes (l.flatMap Addition.mentioned) := by
  rw [nodes_ofAdditions]
  exact listsFirst_eraseDups _

theorem listsFirst_of_rows_eq_some (side : Side α) {row : List α}
    (h : rows side (ofAdditions l) n = some row) :
    ListsFirst row (neighbours side (l.filterMap Addition.edge?) n) := by
  obtain ⟨-, rfl⟩ := (rows_eq_some_iff side).mp h
  rw [edges_ofAdditions, neighbours_eraseDups]
  exact listsFirst_eraseDups _

/-- A graph that says already what an addition would add. -/
def Shows (g : Graph α) : Addition α → Prop
  | .node n => n ∈ g.nodes
  | .edge a b => (a ∈ g.nodes ∧ b ∈ g.nodes) ∧ (a, b) ∈ g.edges

theorem shows_ofAdditions (h : c ∈ l) : (ofAdditions l).Shows c := by
  have hmentioned : ∀ n ∈ c.mentioned, n ∈ (ofAdditions l).nodes := fun n hn =>
    (listsFirst_nodes l).mem_iff.mpr (List.mem_flatMap.mpr ⟨c, h, hn⟩)
  cases c with
  | node n => exact hmentioned n List.mem_cons_self
  | edge a b =>
    have hb : b ∈ (Addition.edge a b).mentioned := List.mem_cons_of_mem a List.mem_cons_self
    exact ⟨⟨hmentioned a List.mem_cons_self, hmentioned b hb⟩, mem_edges_ofAdditions.mpr h⟩

theorem Shows.add (h : g.Shows c) : g.add c = g := by
  cases c with
  | node n => exact addNode_of_mem h
  | edge a b =>
    obtain ⟨⟨ha, hb⟩, he⟩ := h
    rw [Graph.add, addEdge_eq, addNode_of_mem ha, addNode_of_mem hb, if_pos he]

theorem ofAdditions_eraseDups (l : List (Addition α)) :
    ofAdditions l.eraseDups = ofAdditions l := by
  apply apply_eraseDups
  · intro l m h c
    rw [ofAdditions_concat, ofAdditions_concat, h]
  · intro l c hc
    rw [ofAdditions_concat, (shows_ofAdditions hc).add]

-- ---------------------------------------------------------------------------
-- Nodes, neighbours and edges side by side
-- ---------------------------------------------------------------------------

/-- A graph that keeps its nodes, two tables of neighbours and the set of its edges. -/
structure Adjacency (α : Type) where
  nodes : List α
  successors : Table α (List α)
  predecessors : Table α (List α)
  edges : Finset (α × α)

namespace Adjacency

def empty : Adjacency α := ⟨[], .empty, .empty, ∅⟩

def addNode (r : Adjacency α) (n : α) : Adjacency α :=
  if r.successors.contains n then r
  else { r with
    nodes := r.nodes ++ [n]
    successors := r.successors.insert n []
    predecessors := r.predecessors.insert n [] }

/-- Puts a neighbour at the end of a row, which has to be there. -/
def extend (t : Table α (List α)) (key n : α) : Option (Table α (List α)) :=
  (t.get? key).map fun row => t.insert key (row ++ [n])

/-- Adds an edge between nodes that are there. -/
def connect (r : Adjacency α) (a b : α) : Option (Adjacency α) :=
  if (a, b) ∈ r.edges then some r
  else do
    let successors ← extend r.successors a b
    let predecessors ← extend r.predecessors b a
    return { r with successors, predecessors, edges := insert (a, b) r.edges }

def addEdge (r : Adjacency α) (a b : α) : Option (Adjacency α) :=
  ((r.addNode a).addNode b).connect a b

def add (r : Adjacency α) : Addition α → Option (Adjacency α)
  | .node n => some (r.addNode n)
  | .edge a b => r.addEdge a b

def ofAdditions (l : List (Addition α)) : Option (Adjacency α) := l.foldlM add .empty

def Holds (side : Side α) (t : Table α (List α)) (g : Graph α) : Prop :=
  ∀ n, t.get? n = rows side g n

/-- What is kept side by side is what a graph says. -/
structure Represents (r : Adjacency α) (g : Graph α) : Prop where
  nodes : r.nodes = g.nodes
  successors : Holds .start r.successors g
  predecessors : Holds .finish r.predecessors g
  mem_edges : ∀ {e}, e ∈ r.edges ↔ e ∈ g.edges

variable {r : Adjacency α} {t : Table α (List α)} {side : Side α} {e : α × α}

theorem Holds.contains_iff (h : Holds side t g) : t.contains n = true ↔ n ∈ g.nodes := by
  rw [Table.contains, h n]
  exact isSome_rows_iff side

theorem Holds.insert (h : Holds side t g) (hends : ∀ e ∈ g.edges, side.near e ∈ g.nodes)
    (hn : n ∉ g.nodes) : Holds side (t.insert n []) ⟨g.nodes ++ [n], g.edges⟩ := by
  intro m
  rw [Table.get?_insert, h m]
  by_cases hm : m = n
  · subst hm
    have hnone : neighbours side g.edges m = [] := by
      rw [neighbours, List.map_eq_nil_iff, List.filter_eq_nil_iff]
      intro e he hnear
      exact hn (of_decide_eq_true hnear ▸ hends e he)
    simp [rows, hnone]
  · simp [rows, hm]

theorem Holds.extend (h : Holds side t g) (hn : side.near e ∈ g.nodes) :
    ∃ t', Adjacency.extend t (side.near e) (side.far e) = some t' ∧
      Holds side t' ⟨g.nodes, g.edges ++ [e]⟩ := by
  have hrow : t.get? (side.near e) = some (neighbours side g.edges (side.near e)) := by
    rw [h, rows_eq_some_iff]
    exact ⟨hn, rfl⟩
  refine ⟨_, congrArg (Option.map _) hrow, ?_⟩
  intro m
  rw [Table.get?_insert, h m, rows, rows, neighbours_concat]
  by_cases hm : m = side.near e
  · subst hm
    simp [hn]
  · simp [hm, Ne.symm hm]

theorem Represents.empty : (empty : Adjacency α).Represents .empty where
  nodes := rfl
  successors _ := rfl
  predecessors _ := rfl
  mem_edges := by simp [Adjacency.empty, Graph.empty]

theorem Represents.addNode (h : r.Represents g) (hg : g.WellFormed) (n : α) :
    (r.addNode n).Represents (g.addNode n) := by
  unfold Adjacency.addNode
  by_cases hn : n ∈ g.nodes
  · rw [if_pos (h.successors.contains_iff.mpr hn), addNode_of_mem hn]
    exact h
  · rw [if_neg fun hc => hn (h.successors.contains_iff.mp hc), addNode_of_not_mem hn]
    exact {
      nodes := congrArg (· ++ [n]) h.nodes
      successors := h.successors.insert (fun e he => (hg.ends he).1) hn
      predecessors := h.predecessors.insert (fun e he => (hg.ends he).2) hn
      mem_edges := h.mem_edges }

/-- The rows that a new edge extends are there, as its ends are nodes. -/
theorem Represents.connect (h : r.Represents g) (ha : a ∈ g.nodes) (hb : b ∈ g.nodes) :
    ∃ r', r.connect a b = some r' ∧ r'.Represents
      ⟨g.nodes, if (a, b) ∈ g.edges then g.edges else g.edges ++ [(a, b)]⟩ := by
  unfold Adjacency.connect
  by_cases he : (a, b) ∈ g.edges
  · rw [if_pos (h.mem_edges.mpr he), if_pos he]
    exact ⟨r, rfl, h⟩
  · rw [if_neg fun hc => he (h.mem_edges.mp hc), if_neg he]
    obtain ⟨successors, hs, hsuccessors⟩ := h.successors.extend (e := (a, b)) ha
    obtain ⟨predecessors, hp, hpredecessors⟩ := h.predecessors.extend (e := (a, b)) hb
    refine ⟨{ r with successors, predecessors, edges := insert (a, b) r.edges }, ?_,
      h.nodes, hsuccessors, hpredecessors, ?_⟩
    · apply Option.bind_eq_some_iff.mpr
      exact ⟨successors, hs, Option.bind_eq_some_iff.mpr ⟨predecessors, hp, rfl⟩⟩
    · intro e
      simp [h.mem_edges, or_comm]

theorem Represents.addEdge (h : r.Represents g) (hg : g.WellFormed) (a b : α) :
    ∃ r', r.addEdge a b = some r' ∧ r'.Represents (g.addEdge a b) := by
  have hends := (h.addNode hg a).addNode hg.addNode b
  obtain ⟨r', hr', hrep⟩ := hends.connect (a := a) (b := b) (by simp) (by simp)
  refine ⟨r', hr', ?_⟩
  simpa [addEdge_eq] using hrep

theorem Represents.add (h : r.Represents g) (hg : g.WellFormed) (c : Addition α) :
    ∃ r', r.add c = some r' ∧ r'.Represents (g.add c) := by
  cases c with
  | node n => exact ⟨_, rfl, h.addNode hg n⟩
  | edge a b => exact h.addEdge hg a b

theorem Represents.add_of_shows (h : r.Represents g) (hc : g.Shows c) : r.add c = some r := by
  have hnode : ∀ n ∈ g.nodes, r.addNode n = r := fun n hn =>
    if_pos (h.successors.contains_iff.mpr hn)
  cases c with
  | node n => exact congrArg some (hnode n hc)
  | edge a b =>
    obtain ⟨⟨ha, hb⟩, he⟩ := hc
    rw [Adjacency.add, Adjacency.addEdge, hnode a ha, hnode b hb]
    exact if_pos (h.mem_edges.mpr he)

theorem ofAdditions_concat (l : List (Addition α)) (c : Addition α) :
    ofAdditions (l ++ [c]) = (ofAdditions l).bind (·.add c) := by
  simp only [ofAdditions, List.foldlM_append, List.foldlM_cons, List.foldlM_nil]
  exact congrArg (Option.bind _) (funext fun r => bind_pure _)

theorem exists_represents (l : List (Addition α)) :
    ∃ r, ofAdditions l = some r ∧ r.Represents (Graph.ofAdditions l) := by
  induction l using List.reverseRecOn with
  | nil => exact ⟨.empty, rfl, .empty⟩
  | append_singleton l c ih =>
    obtain ⟨r, hr, hrep⟩ := ih
    rw [ofAdditions_concat, hr, Graph.ofAdditions_concat]
    exact hrep.add (built_ofAdditions l).wellFormed c

theorem ofAdditions_eraseDups (l : List (Addition α)) :
    ofAdditions l.eraseDups = ofAdditions l := by
  apply apply_eraseDups
  · intro l m h c
    rw [ofAdditions_concat, ofAdditions_concat, h]
  · intro l c hc
    obtain ⟨r, hr, hrep⟩ := exists_represents l
    rw [ofAdditions_concat, hr]
    exact hrep.add_of_shows (shows_ofAdditions hc)

end Adjacency

-- ---------------------------------------------------------------------------
-- What additions leave
-- ---------------------------------------------------------------------------

/-- What lists of nodes and of neighbours say after additions: each node once, and for each of them
its neighbours once, in the order in which they were added first. -/
structure Records (l : List (Addition α)) (nodes : List α)
    (successors predecessors : α → Option (List α)) : Prop where
  listsFirst_nodes : ListsFirst nodes (l.flatMap Addition.mentioned)
  isSome_successors_iff : ∀ n, (successors n).isSome ↔ n ∈ nodes
  isSome_predecessors_iff : ∀ n, (predecessors n).isSome ↔ n ∈ nodes
  listsFirst_successors : ∀ n row, successors n = some row →
    ListsFirst row (((l.filterMap Addition.edge?).filter (·.1 = n)).map Prod.snd)
  listsFirst_predecessors : ∀ n row, predecessors n = some row →
    ListsFirst row (((l.filterMap Addition.edge?).filter (·.2 = n)).map Prod.fst)
  mem_successors_iff : ∀ a b, (∃ row, successors a = some row ∧ b ∈ row) ↔ .edge a b ∈ l
  mem_predecessors_iff : ∀ a b, (∃ row, predecessors b = some row ∧ a ∈ row) ↔ .edge a b ∈ l

theorem records_ofAdditions (l : List (Addition α)) : Records l (ofAdditions l).nodes
    (ofAdditions l).successors? (ofAdditions l).predecessors? := by
  have hg := (built_ofAdditions l).wellFormed
  rw [← rows_start, ← rows_finish]
  exact {
    listsFirst_nodes := listsFirst_nodes l
    isSome_successors_iff := fun n => isSome_rows_iff .start
    isSome_predecessors_iff := fun n => isSome_rows_iff .finish
    listsFirst_successors := fun n row => listsFirst_of_rows_eq_some .start
    listsFirst_predecessors := fun n row => listsFirst_of_rows_eq_some .finish
    mem_successors_iff := fun a b =>
      (exists_rows_iff .start (e := (a, b)) fun h => (hg.ends h).1).trans
        mem_edges_ofAdditions
    mem_predecessors_iff := fun a b =>
      (exists_rows_iff .finish (e := (a, b)) fun h => (hg.ends h).2).trans
        mem_edges_ofAdditions }

/-- After any row of additions a graph records them, whether it reads the neighbours off its edges
or keeps all four side by side; no row is ever missing, and additions that were made before can be
left out. -/
theorem additions_recorded (l : List (Addition α)) :
    Records l (ofAdditions l).nodes (ofAdditions l).successors? (ofAdditions l).predecessors? ∧
    ofAdditions l.eraseDups = ofAdditions l ∧
    ∃ r, Adjacency.ofAdditions l = some r ∧
      Records l r.nodes r.successors.get? r.predecessors.get? ∧
      (∀ a b, (a, b) ∈ r.edges ↔ .edge a b ∈ l) ∧ Adjacency.ofAdditions l.eraseDups = some r := by
  obtain ⟨r, hr, hrep⟩ := Adjacency.exists_represents l
  refine ⟨records_ofAdditions l, ofAdditions_eraseDups l, r, hr, ?_, ?_, ?_⟩
  · rw [hrep.nodes, funext hrep.successors, funext hrep.predecessors]
    exact records_ofAdditions l
  · exact fun a b => hrep.mem_edges.trans mem_edges_ofAdditions
  · rw [Adjacency.ofAdditions_eraseDups, hr]

/-- An edge to a node that was not there, one from a node to itself, and one that is added again. -/
example : let g : Graph Int := ofAdditions [.edge 2 1, .node 3, .edge 2 2, .edge 2 1, .edge 0 2]
    g.nodes = [2, 1, 3, 0] ∧ g.successors? 2 = some [1, 2] ∧ g.predecessors? 2 = some [2, 0] ∧
      g.successors? 4 = none := by
  decide

end ContractLinker.Graph
