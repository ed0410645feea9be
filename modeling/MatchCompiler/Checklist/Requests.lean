import MatchCompiler.Checklist

/-!
# Requests

The checklists of a compilation are asked for one by one, and all of them are laid
out over the same table, which is changed in place. A request that fails keeps
what it has entered by then.
-/

set_option autoImplicit false

namespace MatchCompiler

structure Request where
  types : TypeOracle
  sharing : Sharing
  index : Nat
  arm : Arm

def Request.serve (request : Request) (table : AccessTable) :
    Except BuildError Checklist × AccessTable :=
  (request.arm.layOut request.types request.sharing request.index).on table

/-- The table behind all requests, those that fail among them. -/
def AccessTable.afterRequests (table : AccessTable) (requests : List Request) : AccessTable :=
  requests.foldl (fun table request => (request.serve table).2) table

def AccessTable.answersTo (table : AccessTable) : List Request → List (Except BuildError Checklist)
  | [] => []
  | request :: rest => (request.serve table).1 :: (request.serve table).2.answersTo rest

end MatchCompiler
