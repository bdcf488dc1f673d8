import OperationTree.Json.Printer

/-! What a caller gives to one call of an operation. -/

namespace OperationTree

/-- The arguments of a call; each of them may be left out. -/
structure Request where
  params : Option Members := none
  payload : Option Json := none
  headers : Option Members := none
  uriOverride : Option String := none
  deriving Inhabited, Repr

namespace Request

def withParam (r : Request) (name : String) (value : Json) : Request :=
  { r with params := some ((r.params.getD []).insert name value) }

def withParams (r : Request) (params : Members) : Request := { r with params := some params }

def withPayload (r : Request) (payload : Json) : Request := { r with payload := some payload }

def withHeader (r : Request) (name value : String) : Request :=
  { r with headers := some ((r.headers.getD []).insert name (.string value)) }

def withUriOverride (r : Request) (uri : String) : Request := { r with uriOverride := some uri }

/-- The overriding URI, unless it is empty. -/
def override? (r : Request) : Option String := r.uriOverride.filter fun uri => !uri.isEmpty

def isDefault (r : Request) : Bool :=
  r.params.isNone && r.payload.isNone && r.headers.isNone && r.uriOverride.isNone

/-- The request as a JSON object without the members left out. -/
def toJson (r : Request) : Json :=
  .object <| (r.params.map fun x => ("params", Json.object x)).toList ++
    (r.payload.map fun x => ("payload", x)).toList ++
    (r.headers.map fun x => ("headers", Json.object x)).toList ++
    (r.uriOverride.map fun x => ("uriOverride", Json.string x)).toList

/-- The request's compact JSON text. -/
def text (r : Request) : String := r.toJson.compact

/-- An optional field: a missing or null value is none, and any other must be read. -/
def optional? {α : Type} (read : Json → Option α) : Option Json → Option (Option α)
  | none | some .null => some none
  | some value => (read value).map some

/-- A request from its four fields. -/
def ofFields? (params payload headers uriOverride : Option Json) : Option Request := do
  return {
    params := ← optional? Json.asObject? params
    payload := ← optional? some payload
    headers := ← optional? Json.asObject? headers
    uriOverride := ← optional? Json.asString? uriOverride }

/-- A request from JSON: an object with the members that `toJson` writes, or an array of at most
these four.  Other members are ignored. -/
def ofJson? : Json → Option Request
  | .object members =>
    let field := Members.get? members
    ofFields? (field "params") (field "payload") (field "headers") (field "uriOverride")
  | .array items =>
    if items.length ≤ 4 then ofFields? items[0]? items[1]? items[2]? items[3]? else none
  | _ => none

end Request
end OperationTree
