import OperationTree.Endpoint
import OperationTree.Http.Method
import OperationTree.Http.Options

/-! The message that an HTTP call sends.  A multipart form brings its own content type, so it is
sent without the headers that state one; the client names itself unless the headers do. -/

namespace OperationTree.Http

inductive Content where
  | empty
  | text (content : String)
  | form (fields : List (String × String))
  deriving DecidableEq, Repr

structure Message where
  method : Method
  url : String
  headers : List (String × String)
  content : Content
  deriving DecidableEq, Repr

/-- Header names are the same up to the case of ASCII letters. -/
def sameName (a b : String) : Bool := a.toLower == b.toLower

/-- The headers that state the form of a body. -/
def statesForm (name : String) : Bool :=
  sameName name Payload.contentTypeHeader || sameName name Payload.enctypeHeader

/-- A raw text is sent as it is, any other raw value as JSON. -/
def Content.ofPayload : Option Payload → Content
  | none => empty
  | some (.text content) => text content
  | some (.form fields) => form fields
  | some (.raw (.string content)) => text content
  | some (.raw value) => text value.compact

def Content.isForm : Content → Bool
  | form _ => true
  | _ => false

namespace Message

/-- The headers of an outgoing request that go with some content. -/
def headersFor (content : Content) (headers : Members) : List (String × String) :=
  (headers.map fun header => (header.1, header.2.plain)).filter fun header =>
    !(content.isForm && statesForm header.1)

def ofOutgoing (method : Method) (o : Outgoing) : Message :=
  let content := Content.ofPayload o.payload
  { method, url := o.url, headers := headersFor content o.headers, content }

def hasHeader (m : Message) (name : String) : Bool := m.headers.any fun h => sameName h.1 name

/-- The message with the client's name, unless it has one. -/
def withAgent (m : Message) (agent : String) : Message :=
  if m.hasHeader userAgentHeader then m
  else { m with headers := m.headers ++ [(userAgentHeader, agent)] }

/-- The characters of a header name. -/
def isTokenChar (c : Char) : Bool := c.isAlphanum || "!#$%&'*+-.^_`|~".toList.contains c

/-- A header value holds no control other than the tab. -/
def isValueChar (c : Char) : Bool := c == '\t' || (0x20 ≤ c.toNat && c.toNat != 0x7F)

/-- A header that can be sent. -/
def isHeader (header : String × String) : Bool :=
  !header.1.isEmpty && header.1.toList.all isTokenChar && header.2.toList.all isValueChar

/-- Whether a URL names a scheme and a host. -/
def namesHost (url : String) : Bool :=
  let scheme := url.toList.takeWhile fun c => c.isAlphanum || c == '+' || c == '-' || c == '.'
  match url.toList.drop scheme.length with
  | ':' :: '/' :: '/' :: c :: _ => !scheme.isEmpty && !(['/', '?', '#', ':'].contains c)
  | _ => false

/-- A message that is fit to be sent. -/
def isSendable (m : Message) : Bool := namesHost m.url && m.headers.all isHeader

end Message
end OperationTree.Http
