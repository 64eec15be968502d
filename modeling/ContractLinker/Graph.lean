/-!
# Directed graphs

An edge from `a` to `b` says that `a` comes before `b`. Nodes and edges are kept once each, in the
order in which they were first added; successors and predecessors are read off the edges, so they
cannot disagree.
-/

namespace ContractLinker

structure Graph (α : Type) where
  nodes : List α := []
  edges : List (α × α) := []
  deriving DecidableEq, Repr

namespace Graph

variable {α : Type} [DecidableEq α]

def empty : Graph α := {}

def contains (g : Graph α) (n : α) : Bool := g.nodes.contains n

def size (g : Graph α) : Nat := g.nodes.length

def addNode (g : Graph α) (n : α) : Graph α :=
  if n ∈ g.nodes then g else { g with nodes := g.nodes ++ [n] }

def addEdge (g : Graph α) (a b : α) : Graph α :=
  let g := (g.addNode a).addNode b
  if (a, b) ∈ g.edges then g else { g with edges := g.edges ++ [(a, b)] }

/-- The ends of the edges that start at `n`, in the order of the edges. -/
def successors (g : Graph α) (n : α) : List α := (g.edges.filter (·.1 = n)).map Prod.snd

/-- The starts of the edges that end at `n`, in the order of the edges. -/
def predecessors (g : Graph α) (n : α) : List α := (g.edges.filter (·.2 = n)).map Prod.fst

def successors? (g : Graph α) (n : α) : Option (List α) :=
  if n ∈ g.nodes then some (g.successors n) else none

def predecessors? (g : Graph α) (n : α) : Option (List α) :=
  if n ∈ g.nodes then some (g.predecessors n) else none

theorem mem_successors {g : Graph α} {a b : α} : b ∈ g.successors a ↔ (a, b) ∈ g.edges := by
  simp [successors]

theorem mem_predecessors {g : Graph α} {a b : α} : a ∈ g.predecessors b ↔ (a, b) ∈ g.edges := by
  simp [predecessors]

end Graph

end ContractLinker
