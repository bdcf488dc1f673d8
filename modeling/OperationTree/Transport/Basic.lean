import OperationTree.Outside.Exchange

/-! Transports, which give operations their functions.  Such a function does nothing by itself: it
makes of a request the job of one call. -/

namespace OperationTree

/-- Where an operation stands: the keys that lead to it in one of the compiled trees. -/
structure Site where
  tree : Nat
  keys : List String
  deriving DecidableEq, Repr

inductive Job where
  /-- The outcome is known and needs no work. -/
  | finished (outcome : Outcome)
  /-- The outcome comes through a gate that opens when the call starts. -/
  | gated
  | exchange (e : Exchange)
  /-- Calls the operations with the given paths and merges their results. -/
  | aggregate (site : Site) (ids : List String) (request : Request)

/-- What a transport knows of the tree when it is asked for a function. -/
structure Context where
  settings : Settings
  site : Site

/-- A way in which operations do their work. -/
structure Transport where
  name : String
  /-- The function of an operation with given details and the details of its group. -/
  call? : Context → Json → Option Json → Option (Request → Job)
  /-- The function of a canned operation, for transports whose responses depend on the request. -/
  canned? : Context → Members → Option (Request → Job) := fun _ _ => none
  /-- Why closing the transport fails. -/
  closeFault : Option String := none
  /-- Whether closing the transport goes on after it has been asked to close. -/
  closesLater : Bool := false

/-- A function whose calls all fail in the same way. -/
def Job.failing (e : CallError) : Request → Job := fun _ => .finished (.error e)

end OperationTree
