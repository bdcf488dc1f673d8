import OperationTree.Payload
import OperationTree.Request
import OperationTree.Settings

/-! Endpoints, which are the parts of a request that are known when a tree is compiled, and the
outgoing request that one call makes of them. -/

namespace OperationTree

/-- The target of an operation: its URL with base and default parameters filled in, the base for
overriding URIs, the method as written, and the operation's own headers. -/
structure Endpoint where
  url : String
  base : String
  method : String
  headers : Option Members

structure Outgoing where
  url : String
  method : String
  headers : Members
  payload : Option Payload

namespace Endpoint

/-- The URL that details give behind a base, with parameters substituted. -/
def urlOf (details : Option Json) (base : String) (params : Option Members) : String :=
  Url.substitute (Url.qualify base ((details.bind (·.string? "url")).getD "")) params

def ofDetails (details : Option Json) (settings : Settings) : Endpoint :=
  let base := settings.baseFor details
  { url := urlOf details base settings.params?
    base
    method := (details.bind (·.string? "method")).getD ""
    headers := details.bind (·.object? "headers") }

def withMethod (e : Endpoint) (method : String) : Endpoint := { e with method }

/-- The operation's headers with the default content type. -/
def defaultedHeaders (e : Endpoint) : Members :=
  Payload.withDefaultType e.method (e.headers.getD [])

/-- The URL of a call.  An overriding URI stands behind the base like the operation's own, and the
call's parameters are substituted into either. -/
def callUrl (e : Endpoint) (r : Request) : String :=
  Url.substitute ((r.override?.map (Url.qualify e.base)).getD e.url) r.params

/-- The outgoing request of a call.  The operation's headers alone decide the form of the body, and
the call's headers are put over them. -/
def resolve (e : Endpoint) (r : Request) : Outgoing where
  url := e.callUrl r
  method := e.method
  headers := e.defaultedHeaders.extend (r.headers.getD [])
  payload := Payload.ofCall? e.defaultedHeaders r.payload

end Endpoint

/-- The text under which a response to this request may be canned. -/
def Outgoing.signature (o : Outgoing) : String :=
  "URI[" ++ (Json.string o.url).compact ++ "]Payload[" ++
    (o.payload.map Payload.signatureText).getD "null" ++
    "]Headers[" ++ (Json.object o.headers).compact ++ "]"

end OperationTree
