import ContractLinker.Graph

/-!
# Topological order

Nodes leave a queue one by one. At first the queue holds the nodes without predecessors; a node
joins it when the last of its predecessors has left. If some nodes never join, each of them has a
predecessor among them, and going from node to predecessor leads into a cycle.
-/

namespace ContractLinker.Graph

variable {α : Type} [DecidableEq α]

/-- A closed walk against the edges: each node is followed by one of its predecessors, and the
last node is the first again. -/
structure Cycle (α : Type) where
  nodes : List α
  deriving DecidableEq, Repr

def isReady (g : Graph α) (left : List α) (n : α) : Bool :=
  (g.predecessors n).all left.contains

/-- Lets up to `count` nodes leave the queue, and returns all that have left. -/
def drain (g : Graph α) : (count : Nat) → (left queue : List α) → List α
  | 0, left, _ => left
  | _ + 1, left, [] => left
  | count + 1, left, n :: queue =>
    let left := left ++ [n]
    g.drain count left (queue ++ (g.successors n).filter (g.isReady left))

/-- The nodes in the order in which they leave the queue; no node leaves it twice. -/
def leaving (g : Graph α) : List α :=
  g.drain g.nodes.length [] (g.nodes.filter (g.isReady []))

/-- Walks from `n` to predecessors within `blocked`. The walk ends at a node that is not among the
`unvisited`, and the part of it from that node's first visit on is returned. -/
def chase (g : Graph α) (blocked unvisited walked : List α) (n : α) : List α :=
  if _h : n ∈ unvisited then
    match (g.predecessors n).find? blocked.contains with
    | some p => g.chase blocked (unvisited.erase n) (walked ++ [n]) p
    | none => walked ++ [n]
  else walked.dropWhile (· ≠ n) ++ [n]
termination_by unvisited.length
decreasing_by
  have := List.length_erase_of_mem _h
  have := List.length_pos_of_mem _h
  omega

/-- A cycle that the walk from the first blocked node runs into. -/
def findCycle (g : Graph α) (blocked : List α) : Cycle α :=
  match blocked with
  | [] => ⟨[]⟩
  | n :: _ => ⟨g.chase blocked blocked [] n⟩

/-- The nodes with every edge leading forwards, or a cycle if there is no such order. -/
def sort (g : Graph α) : Except (Cycle α) (List α) :=
  let order := g.leaving
  if order.length = g.nodes.length then .ok order
  else .error (g.findCycle (g.nodes.filter fun n => !order.contains n))

end ContractLinker.Graph
