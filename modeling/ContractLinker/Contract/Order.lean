import ContractLinker.Contract
import ContractLinker.Graph.Order

/-!
# Deployment order

A contract is deployed after everything it depends on. Contracts are the nodes of a graph, by
their ids, and a dependency is an edge to the contract that has it; both are added in the order in
which the contracts are given.
-/

namespace ContractLinker.Linked

def graph (contracts : List Linked) : Graph Int :=
  let withNodes := contracts.foldl (fun g c => g.addNode c.id) .empty
  contracts.foldl
    (fun g c => c.dependencies.entries.foldl (fun g row => g.addEdge row.2.id c.id) g) withNodes

/-- The contract of an id, the last one given if several have it. -/
def withId (contracts : List Linked) (id : Int) : Except Failure Linked :=
  match contracts.reverse.find? (·.id = id) with
  | some c => .ok c
  | none => .error (.unknownContract id)

def deploymentOrder (contracts : List Linked) : Except Failure (List Linked) :=
  match (graph contracts).sort with
  | .ok ids => ids.mapM (withId contracts)
  | .error cycle => do
    let members ← cycle.nodes.mapM (withId contracts)
    .error (.cyclic (members.map (·.name)))

end ContractLinker.Linked
