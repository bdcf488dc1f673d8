import OperationTree.CommandLine.Arguments
import OperationTree.LogFilter
import OperationTree.Session.Schedule

/-! One run of the command line: it compiles a definition, then lists its operations or calls one of
them, and closes what was loaded. -/

namespace OperationTree.CommandLine

structure Report where
  exitCode : Nat
  output : String := ""
  /-- Why the run failed, from the outermost cause to the innermost. -/
  failure : Option String := none
  /-- Whether the directives for the log were refused; the run goes on without it. -/
  loggingFailed : Bool := false
  /-- What was closed at the end of the run. -/
  closings : List Closing := []

/-- The variable with the directives for the log. -/
def logVariable : String := "REQUEST_BUILDER_LOG"

def versionText : String := "request-builder 0.1.0\n"

def usageText : String :=
  "Usage: request-builder [OPTIONS] --definition <DEFINITION> [OPERATION]\n"

def Report.success (output : String) : Report := { exitCode := 0, output }

def Report.failed (failure : String) : Report := { exitCode := 1, failure := some failure }

/-- A session with one tree. -/
def openTree (catalog : Catalog) (outside : Outside) (settings : Settings) (definition : Json) :
    Session :=
  let session : Session := { outside, trackers := [{}] }
  session.addTree catalog settings 0 definition

/-- Closes the tree of a session and reports what came before. -/
def close (session : Session) (output : String) (failure : Option String) : Report :=
  let (faults, session) := session.awaitShutdown 0
  let fault := (faults.filter fun faults => !faults.isEmpty).map CloseFaults.message
  let failure := failure.or fault
  { exitCode := if failure.isSome then 1 else 0
    output, failure, closings := session.closings }

/-- The paths of all operations, one to a line. -/
def listing (session : Session) : String :=
  String.join ((session.trees.flatMap fun tree => tree.compiled.paths).map fun path => path ++ "\n")

/-- The outcome of the operation at a path; nothing, if it never settles. -/
def call (session : Session) (path : String) (request : Request) : Option Outcome × Session :=
  match (session.rootOf? { tree := 0, keys := [] }).bind fun root => root.operationAt? path with
  | none => (some (.error (.unknownOperation path)), session)
  | some operation =>
    let (future, session) := session.invoke operation request
    session.await future

def callFailure (path reason : String) : String :=
  "operation " ++ path ++ " failed: " ++ reason

/-- Lists the operations or calls one of them, and closes the tree. -/
def act (session : Session) (arguments : Arguments) : Report :=
  match arguments.operation.filter fun _ => !arguments.list with
  | none => close session (listing session) none
  | some path =>
    match call session path arguments.request with
    | (some (.ok value), session) => close session (value.pretty ++ "\n") none
    | (some (.error e), session) => close session "" (some (callFailure path e.message))
    | (none, session) => close session "" (some (callFailure path "the call never settles"))

/-- The definition and the settings that arguments name. -/
def documents (files : FileReader) (arguments : Arguments) :
    Except Document.Fault (Json × Settings) := do
  let definition ← Document.definition files arguments.definition
  let settings ←
    match arguments.config with
    | none => pure {}
    | some path => Document.settings files path
  return (definition, settings)

/-- Reads the documents and acts on them. -/
def execute (catalog : Catalog) (outside : Outside) (arguments : Arguments) : Report :=
  match documents outside.files arguments with
  | .error fault => .failed fault.message
  | .ok (definition, settings) => act (openTree catalog outside settings definition) arguments

/-- Judges the directives for the log; without any there is a default. -/
def checkLog (directives : Option String) : Except LogFilter.Fault Unit :=
  directives.elim (.ok ()) LogFilter.check

/-- The exit code of a run that breaks off before it does anything. -/
def brokenOffCode : Nat := 101

/-- A run with the standard transports.  Malformed directives for the log are left out, but others
that are refused end the run. -/
def run (outside : Outside) (logLevel : Option String) (args : List String) : Report :=
  match Parsed.ofList args with
  | .invalid => { exitCode := 2 }
  | .help => .success usageText
  | .version => .success versionText
  | .run arguments =>
    match checkLog (arguments.logLevel.or logLevel) with
    | .ok () => execute .standard outside arguments
    | .error .malformed => { execute .standard outside arguments with loggingFailed := true }
    | .error .splitCharacter => { exitCode := brokenOffCode }

/-- The files that operations of a definition read. -/
def locations (definition : Json) : List String :=
  (Node.plan definition).operations.filterMap fun leaf =>
    (Definition.ownDetails leaf.node).bind fun details => details.string? "location"

end OperationTree.CommandLine
