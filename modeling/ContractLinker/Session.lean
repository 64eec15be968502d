import ContractLinker.Batch

/-!
# Sessions

A session is a batch together with the alias table of its caller, who may change the table between
any two requests. `run` plays a row of requests.
-/

namespace ContractLinker

structure Session where
  batch : Batch := {}
  aliases : AliasTable := {}
  deriving DecidableEq, Repr

namespace Session

inductive Request
  | addCode (name path code target : String)
  | addSource (name path target : String)
  | prepare
  | plan
  | contracts
  /-- Orders the contracts at some places of the registration order; places beyond it are
  skipped. -/
  | sort (places : List Nat)
  | setAlias (key address : String)
  | eraseAlias (key : String)
  deriving DecidableEq, Repr

inductive Reply
  | done
  | contract (c : Linked)
  | contracts (cs : List Linked)
  | order (cs : List Linked)
  | plan (steps : List Deployment)
  deriving DecidableEq, Repr

/-- Registers a contract; a failure leaves the session as it is. -/
def register (s : Session) (added : Logged (Batch × Linked)) : Session × Logged Reply :=
  match added.result with
  | .error _ => (s, do let _ ← added; return .done)
  | .ok (batch, _) => ({ s with batch }, do return .contract (← added).2)

def step (options : Options) (read : String → Except Failure String) (s : Session) :
    Request → Session × Logged Reply
  | .addCode name path code target => s.register (s.batch.addCode name path code target)
  | .addSource name path target => s.register (s.batch.addSource read name path target)
  | .prepare =>
    let (batch, ordered) := s.batch.prepare options s.aliases
    ({ s with batch }, do return .order (← ordered))
  | .plan =>
    let (batch, steps) := s.batch.plan options s.aliases
    ({ s with batch }, do return .plan (← steps))
  | .contracts => (s, pure (.contracts s.batch.set.contracts))
  | .sort places =>
    let chosen := places.filterMap (s.batch.set.contracts[·]?)
    (s, do return .order (← .ofExcept (Linked.deploymentOrder chosen)))
  | .setAlias key address => ({ s with aliases := s.aliases.insert key address }, pure .done)
  | .eraseAlias key => ({ s with aliases := s.aliases.erase key }, pure .done)

def run (options : Options) (read : String → Except Failure String) (s : Session) :
    List Request → List (Session × Logged Reply)
  | [] => []
  | request :: rest =>
    let answer := s.step options read request
    answer :: answer.1.run options read rest

end Session

end ContractLinker
