import OperationTree.Json.Plain

/-! The vocabulary of definition documents.  A definition is a tree of objects; some keys of an
object configure it, and the objects under its other keys are its children. -/

namespace OperationTree.Definition

/-- The settings of an operation: URL, method, statement and the like. -/
def detailsKey : String := "operationDetails"

/-- The transport of a node, which its children inherit. -/
def moduleKey : String := "asyncModule"

/-- One response for every request. -/
def defaultResponseKey : String := "mockResponse"

/-- Responses by resolved URL. -/
def urlResponsesKey : String := "smartMockResponse"

/-- Responses by request signature. -/
def signatureResponsesKey : String := "superMockResponse"

def responseKeys : List String := [defaultResponseKey, urlResponsesKey, signatureResponsesKey]

/-- A reserved key configures its node, so its value is never a child. -/
def isReserved (key : String) : Bool := key == detailsKey || responseKeys.contains key

/-- A child is an object under a key that is not reserved. -/
def isChild (key : String) (value : Json) : Bool := value.isObject && !isReserved key

/-- The module that the node itself names, if it is a nonempty string. -/
def ownModule (node : Members) : Option String :=
  ((node.get? moduleKey).bind Json.asString?).filter fun name => !name.isEmpty

/-- The node's own operation details, unless they are null. -/
def ownDetails (node : Members) : Option Json :=
  (node.get? detailsKey).filter fun details => !details.isNull

/-- The node's own module, or else the inherited one. -/
def effectiveModule (node : Members) (inherited : Option String) : Option String :=
  (ownModule node).or inherited

/-- Whether any key for canned responses is present, whatever its value. -/
def hasResponses (node : Members) : Bool := responseKeys.any node.contains

/-- Whether the node has a truthy default response. -/
def hasDefaultResponse (node : Members) : Bool :=
  ((node.get? defaultResponseKey).map Json.truthy).getD false

/-- A leaf has a module together with details, or a default response. -/
def isLeaf (node : Members) (module : Option String) : Bool :=
  (module.isSome && (ownDetails node).isSome) || hasDefaultResponse node

/-- What a node becomes in the compiled tree. -/
inductive Role where
  /-- A call through a transport. -/
  | operation
  /-- A call that a canned response answers. -/
  | canned
  /-- A group of other nodes. -/
  | group
  deriving DecidableEq, Repr

/-- The role of a node with the given effective module. -/
def role (node : Members) (module : Option String) : Role :=
  if !isLeaf node module then .group
  else if hasResponses node then .canned
  else .operation

end OperationTree.Definition
