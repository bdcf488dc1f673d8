/-! The ways in which a call of an operation fails, and their messages. -/

namespace OperationTree

inductive CallError where
  /-- The definition names no module that gives a function for the operation. -/
  | moduleUnavailable (module : Option String)
  | invalidMethod (method : String)
  /-- A response with a status that is no success. -/
  | status (url : String) (code : Nat) (reason body : String)
  /-- A failure of the network, the file system or the database. -/
  | transport (module detail : String)
  | unknownOperation (id : String)
  /-- None of an aggregate's results is an object. -/
  | aggregate
  | invalidDefinition (detail : String)
  deriving DecidableEq, Repr

namespace CallError

def message : CallError → String
  | moduleUnavailable module =>
    "Failed to get asyncFn for module " ++ module.getD "undefined"
  | invalidMethod method => "Invalid HTTP method " ++ method
  | status url code reason _ =>
    "request to " ++ url ++ " failed with status " ++ toString code ++ " " ++ reason
  | transport module detail => module ++ " transport failed: " ++ detail
  | unknownOperation id => "unknown operation: " ++ id
  | aggregate => "Unable to merge aggregate responses"
  | invalidDefinition detail => "invalid operation definition: " ++ detail

/-- Whether the definition is at fault rather than the far side. -/
def isConfiguration : CallError → Bool
  | moduleUnavailable _ | invalidMethod _ | unknownOperation _ | invalidDefinition _ => true
  | status .. | transport .. | aggregate => false

end CallError
end OperationTree
