import OperationTree.Json.Value
import OperationTree.Tree.Path

/-! Trees of operations.  A tree has the shape of its definition: groups keep the keys of their
objects in order, and what is neither an operation nor a group stays as it is written. -/

namespace OperationTree

inductive Node (α : Type) where
  | operation (content : α)
  /-- A group with the module that it names itself. -/
  | group (module : Option String) (entries : List (String × Node α))
  | value (value : Json)

namespace Node

variable {α β : Type}

def operation? : Node α → Option α
  | operation content => some content
  | _ => none

/-- The entries of a group; other nodes have none. -/
def entries : Node α → List (String × Node α)
  | group _ entries => entries
  | _ => []

def child? (node : Node α) (key : String) : Option (Node α) := node.entries.lookup key

def follow? (node : Node α) (keys : List String) : Option (Node α) := keys.foldlM child? node

def find? (node : Node α) (path : String) : Option (Node α) := node.follow? (Path.split path)

def operationAt? (node : Node α) (path : String) : Option α :=
  (node.find? path).bind operation?

mutual

/-- The operations of a tree, depth first. -/
def operations : Node α → List α
  | operation content => [content]
  | group _ entries => operationsOf entries
  | value _ => []

def operationsOf : List (String × Node α) → List α
  | [] => []
  | (_, node) :: rest => node.operations ++ operationsOf rest

end

mutual

/-- The tree with a function applied to every operation. -/
def map (f : α → β) : Node α → Node β
  | operation content => operation (f content)
  | group module entries => group module (mapEntries f entries)
  | value v => value v

def mapEntries (f : α → β) : List (String × Node α) → List (String × Node β)
  | [] => []
  | (key, node) :: rest => (key, node.map f) :: mapEntries f rest

end

end Node
end OperationTree
