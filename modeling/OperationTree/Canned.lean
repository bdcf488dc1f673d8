import OperationTree.Definition
import OperationTree.Endpoint

/-! Canned responses, which a definition gives in place of a call.  A response for the request's
signature comes first, then one for its URL, then the default, then an empty object; only truthy
responses count. -/

namespace OperationTree

structure Canned where
  default : Option Json
  byUrl : Option Members
  bySignature : Option Members

namespace Canned

open Definition

def ofNode (node : Members) : Canned where
  default := (node.get? defaultResponseKey).filter Json.truthy
  byUrl := (node.get? urlResponsesKey).bind Json.asObject?
  bySignature := (node.get? signatureResponsesKey).bind Json.asObject?

def isEmpty (c : Canned) : Bool :=
  c.default.isNone && c.byUrl.isNone && c.bySignature.isNone

def defaultResponse (c : Canned) : Json := c.default.getD (.object [])

/-- The truthy response under a key. -/
def hit (responses : Option Members) (key : String) : Option Json :=
  (responses.bind (Members.get? · key)).filter Json.truthy

def respond (c : Canned) (o : Outgoing) : Json :=
  ((hit c.bySignature o.signature).or (hit c.byUrl o.url)).getD c.defaultResponse

end Canned
end OperationTree
