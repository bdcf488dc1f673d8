import OperationTree.Json.Value

/-! The HTTP methods that operations may use. -/

namespace OperationTree.Http

inductive Method where
  | get
  | put
  | post
  | delete
  deriving DecidableEq, Repr

namespace Method

def name : Method → String
  | get => "GET"
  | put => "PUT"
  | post => "POST"
  | delete => "DELETE"

def all : List Method := [get, put, post, delete]

/-- The method with exactly this upper-case name. -/
def ofName? (name : String) : Option Method := all.find? fun m => m.name == name

/-- A method from JSON: its name, or an object whose only member is the name with null. -/
def ofJson? : Json → Option Method
  | .string name => ofName? name
  | .object [(name, .null)] => ofName? name
  | _ => none

theorem ofName?_name (m : Method) : ofName? m.name = some m := by cases m <;> rfl

end Method
end OperationTree.Http
