import OperationTree.Json.Reader
import OperationTree.Request

/-! The arguments of the command line.  Each option may be given once, its value behind an equals
sign or as the next argument, which then must not start with a dash.  Arguments are read from left
to right, and the first one that is wrong, or asks for help or the version, decides. -/

namespace OperationTree.CommandLine

/-- The options by what they set. -/
inductive Key where
  | definition
  | config
  | params
  | payload
  | headers
  | uriOverride
  | list
  | logLevel
  | logJson
  | help
  | version
  deriving DecidableEq, Repr

namespace Key

def ofLong? : String → Option Key
  | "definition" => some definition
  | "config" => some config
  | "params" => some params
  | "payload" => some payload
  | "headers" => some headers
  | "uri-override" => some uriOverride
  | "list" => some list
  | "log-level" => some logLevel
  | "log-json" => some logJson
  | "help" => some help
  | "version" => some version
  | _ => none

def ofShort? : Char → Option Key
  | 'd' => some definition
  | 'c' => some config
  | 'h' => some help
  | 'V' => some version
  | _ => none

def takesValue : Key → Bool
  | list | logJson | help | version => false
  | _ => true

end Key

/-- What the arguments read so far set. -/
structure Draft where
  definition : Option String := none
  config : Option String := none
  operation : Option String := none
  request : Request := {}
  list : Bool := false
  logLevel : Option String := none
  logJson : Bool := false

structure Arguments where
  definition : String
  config : Option String
  operation : Option String
  request : Request
  /-- Whether the operations are listed and none is called. -/
  list : Bool
  logLevel : Option String
  logJson : Bool

namespace Draft

/-- A value for an option that has none yet. -/
def once? {α : Type} (old : Option α) (new : Option α) : Option (Option α) :=
  if old.isNone && new.isSome then some new else none

/-- A file name, which must not be empty. -/
def fileName? (text : String) : Option String := if text.isEmpty then none else some text

def object? (text : String) : Option Members := (Json.parse? text).bind Json.asObject?

/-- Sets an option to a value; a second value and a malformed one are refused. -/
def setValue? (d : Draft) (key : Key) (text : String) : Option Draft :=
  match key with
  | .definition => (once? d.definition (fileName? text)).map fun x => { d with definition := x }
  | .config => (once? d.config (fileName? text)).map fun x => { d with config := x }
  | .params => (once? d.request.params (object? text)).map fun x => { d with request.params := x }
  | .payload =>
    (once? d.request.payload (Json.parse? text)).map fun x => { d with request.payload := x }
  | .headers =>
    (once? d.request.headers (object? text)).map fun x => { d with request.headers := x }
  | .uriOverride =>
    (once? d.request.uriOverride (some text)).map fun x => { d with request.uriOverride := x }
  | .logLevel => (once? d.logLevel (some text)).map fun x => { d with logLevel := x }
  | _ => none

/-- Sets an option without value; a second time is refused. -/
def setFlag? (d : Draft) : Key → Option Draft
  | .list => if d.list then none else some { d with list := true }
  | .logJson => if d.logJson then none else some { d with logJson := true }
  | _ => none

/-- Takes an argument that is no option. -/
def setOperation? (d : Draft) (text : String) : Option Draft :=
  (once? d.operation (some text)).map fun x => { d with operation := x }

/-- The arguments of a run: a definition is needed, and an operation unless they are listed. -/
def finish? (d : Draft) : Option Arguments :=
  match d.definition with
  | none => none
  | some definition =>
    if d.operation.isNone && !d.list then none
    else some { d with definition }

end Draft

/-- What a command line asks for. -/
inductive Parsed where
  | invalid
  | help
  | version
  | run (arguments : Arguments)

/-- The end of the arguments. -/
def Parsed.ofDraft (d : Draft) : Parsed := d.finish?.elim invalid run

/-- Whether the next argument may be the value of an option. -/
def isValue (arg : String) : Bool := arg == "-" || !arg.startsWith "-"

/-- The name of a long option, and the value behind an equals sign. -/
def splitLong (cs : List Char) : String × Option String :=
  (String.ofList (cs.takeWhile fun c => c != '='),
    match cs.dropWhile fun c => c != '=' with
    | [] => none
    | _ :: value => some (String.ofList value))

/-- The option that an argument is, and the value that it holds itself; nothing, if it is no option.
The inner nothing stands for an unknown option. -/
def option? (arg : String) : Option (Option (Key × Option String)) :=
  match arg.toList with
  | '-' :: '-' :: rest =>
    let (name, value) := splitLong rest
    some ((Key.ofLong? name).map fun key => (key, value))
  | '-' :: c :: rest =>
    some <| (Key.ofShort? c).map fun key =>
      (key,
        match rest with
        | [] => none
        | '=' :: value => some (String.ofList value)
        | value => some (String.ofList value))
  | _ => none

/-- Takes all arguments as no options. -/
def readOperands (d : Draft) : List String → Parsed
  | [] => .ofDraft d
  | arg :: rest =>
    match d.setOperation? arg with
    | none => .invalid
    | some d => readOperands d rest

def readArguments (d : Draft) : List String → Parsed
  | [] => .ofDraft d
  | arg :: rest =>
    if arg = "--" then readOperands d rest
    else
      match option? arg with
      | none =>
        match d.setOperation? arg with
        | none => .invalid
        | some d => readArguments d rest
      | some none => .invalid
      | some (some (.help, none)) => .help
      | some (some (.version, none)) => .version
      | some (some (key, value)) =>
        if key.takesValue then
          match value with
          | some value =>
            match d.setValue? key value with
            | none => .invalid
            | some d => readArguments d rest
          | none =>
            match rest with
            | [] => .invalid
            | value :: rest =>
              if isValue value then
                match d.setValue? key value with
                | none => .invalid
                | some d => readArguments d rest
              else .invalid
        else if value.isSome then .invalid
        else
          match d.setFlag? key with
          | none => .invalid
          | some d => readArguments d rest

def Parsed.ofList (args : List String) : Parsed := readArguments {} args

end OperationTree.CommandLine
