import OperationTree.Document
import OperationTree.File.Encoding
import OperationTree.Http.Message
import OperationTree.Http.Response
import OperationTree.Link
import OperationTree.Sql.Query
import OperationTree.Sql.Row

/-! What calls do outside the program: they read files, send messages and run queries.  An exchange
describes one such act, and running it gives the result of the call. -/

namespace OperationTree

/-- The result of a call. -/
abbrev Outcome := Except CallError Json

/-- The world outside the program. -/
structure Outside where
  files : FileReader := fun _ => .error .notFound
  web : Link Http.Message Http.Response := .down .networkUnreachable
  database : Link Sql.Query Sql.Table := .down .networkUnreachable

/-- One act outside the program. -/
inductive Exchange where
  | send (message : Http.Message)
  | read (location : String) (encoding : Option File.Encoding)
  /-- A query, of which `single` asks for the only row. -/
  | run (query : Sql.Query) (single : Bool)

namespace Exchange

/-- The names under which the transports report their failures. -/
def httpName : String := "http"

def fileName : String := "file"

def sqlName : String := "mysql"

/-- The result of a message that was sent. -/
def sendResult (url : String) : Except String Http.Response → Outcome
  | .ok response => response.outcome url
  | .error fault => .error (.transport httpName fault)

/-- The result of reading a file. -/
def readResult (files : FileReader) (location : String) (encoding : Option File.Encoding) :
    Outcome :=
  match files location with
  | .error e => .error (.transport fileName (location ++ ": " ++ e.message))
  | .ok bytes =>
    match File.decode encoding bytes with
    | .error fault => .error (.transport fileName fault.message)
    | .ok value => .ok value

/-- The result of a query. -/
def runResult (single : Bool) : Except String Sql.Table → Outcome
  | .ok table => .ok (table.value single)
  | .error fault => .error (.transport sqlName fault)

def sendFault (e : SystemError) : String := "error sending request: " ++ e.message

def runFault (e : SystemError) : String := "error communicating with database: " ++ e.message

/-- Why an exchange is given up before anything is sent. -/
def refusal? : Exchange → Option CallError
  | send message =>
    if message.isSendable then none else some (.transport httpName "the message cannot be built")
  | _ => none

/-- Carries out an exchange. -/
def perform (outside : Outside) : Exchange → Outcome × Outside
  | send message =>
    let (answer, web) := outside.web.ask sendFault message
    (sendResult message.url answer, { outside with web })
  | read location encoding => (readResult outside.files location encoding, outside)
  | run query single =>
    let (answer, database) := outside.database.ask runFault query
    (runResult single answer, { outside with database })

end Exchange
end OperationTree
