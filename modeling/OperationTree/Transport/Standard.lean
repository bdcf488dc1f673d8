import OperationTree.Aggregate
import OperationTree.Canned
import OperationTree.Transport.Basic

/-! The transports for HTTP, files, a database and aggregates. -/

namespace OperationTree.Transport

/-- The endpoint of an HTTP operation.  An operation with a URL and no method is a GET. -/
def httpEndpoint (details : Json) (settings : Settings) : Endpoint :=
  let endpoint := Endpoint.ofDetails (some details) settings
  let hasUrl := ((details.string? "url").map fun url => !url.isEmpty).getD false
  if endpoint.method.isEmpty && hasUrl then endpoint.withMethod Http.Method.get.name else endpoint

/-- The method that an error names: an operation without one has an undefined method. -/
def methodShown (name : String) : String := if name.isEmpty then "undefined" else name

/-- Calls of an HTTP operation send the request that its endpoint resolves. -/
def httpCall (options : Http.Options) (context : Context) (details : Json) : Request → Job :=
  let endpoint := httpEndpoint details context.settings
  match Http.Method.ofName? endpoint.method with
  | none => Job.failing (.invalidMethod (methodShown endpoint.method))
  | some method => fun request =>
    let message := Http.Message.ofOutgoing method (endpoint.resolve request)
    .exchange (.send (message.withAgent options.userAgent))

/-- Canned HTTP operations respond to the request that their endpoint resolves. -/
def httpCanned (context : Context) (node : Members) : Request → Job :=
  let endpoint := Endpoint.ofDetails (Definition.ownDetails node) context.settings
  fun request => .finished (.ok ((Canned.ofNode node).respond (endpoint.resolve request)))

def http (options : Http.Options) : Transport where
  name := Exchange.httpName
  call? context details _ := some (httpCall options context details)
  canned? context node := some (httpCanned context node)

/-- Calls of a file operation read the file at its location. -/
def fileCall (details : Json) : Request → Job :=
  match details.string? "location" with
  | none => Job.failing (.invalidDefinition "file operation requires a string `location`")
  | some location =>
    match details.string? "encoding" with
    | none => fun _ => .exchange (.read location none)
    | some name =>
      match File.Encoding.ofName? name with
      | none =>
        Job.failing (.invalidDefinition ("unsupported file encoding `" ++ name ++ "`"))
      | some encoding => fun _ => .exchange (.read location (some encoding))

def file : Transport where
  name := Exchange.fileName
  call? _ details _ := some (fileCall details)

/-- Calls of a database operation run its statement, with their own parameters or else those of the
settings. -/
def sqlCall (context : Context) (details : Json) (parent : Option Json) : Request → Job :=
  match Sql.prepare? details parent with
  | none =>
    Job.failing
      (.invalidDefinition "mysql operation requires `SQL` as a string or an array of strings")
  | some statement =>
    let single := ((details.get? "singleRecord").bind Json.asBool?).getD false
    fun request =>
      let params := request.params.or context.settings.params?
      .exchange (.run (Sql.Query.ofStatement statement params) single)

def sql : Transport where
  name := Exchange.sqlName
  call? context details parent := some (sqlCall context details parent)

def aggregatorName : String := "aggregator"

/-- Calls of an aggregate call the operations that it lists. -/
def aggregateCall (context : Context) (details : Json) : Request → Job :=
  match Aggregate.targets? details with
  | none =>
    Job.failing
      (.invalidDefinition "aggregator operation requires an `operationIds` array of strings")
  | some ids => fun request => .aggregate context.site ids request

def aggregator : Transport where
  name := aggregatorName
  call? context details _ := some (aggregateCall context details)

end OperationTree.Transport
