import OperationTree.Definition
import OperationTree.Tree.Node

/-! The plan of a definition: its tree, with a leaf for every operation that says where it stands
and which node it comes from. -/

namespace OperationTree

structure Leaf where
  /-- The keys that lead to the operation. -/
  keys : List String
  path : String
  module : Option String
  /-- Whether the node has canned responses. -/
  isCanned : Bool
  node : Members
  /-- The details of the group that the operation stands in. -/
  parentDetails : Option Json

/-- What a group hands down to its children. -/
structure Surroundings where
  module : Option String
  details : Option Json
  keys : List String
  path : String

namespace Surroundings

/-- The surroundings of the children of the root. -/
def ofRoot (node : Members) : Surroundings where
  module := Definition.ownModule node
  details := Definition.ownDetails node
  keys := []
  path := ""

/-- The surroundings of the children of a group under `key`. -/
def enter (s : Surroundings) (key : String) (node : Members) : Surroundings where
  module := Definition.effectiveModule node s.module
  details := Definition.ownDetails node
  keys := s.keys ++ [key]
  path := Path.join s.path key

/-- The leaf for a node under `key`. -/
def leaf (s : Surroundings) (key : String) (node : Members) : Leaf where
  keys := s.keys ++ [key]
  path := Path.join s.path key
  module := Definition.effectiveModule node s.module
  isCanned := Definition.hasResponses node
  node
  parentDetails := s.details

end Surroundings

namespace Node

mutual

/-- The plan of the value under a key. -/
def planValue (s : Surroundings) (key : String) : Json → Node Leaf
  | .object node =>
    if Definition.isReserved key then value (.object node)
    else if Definition.isLeaf node (Definition.effectiveModule node s.module) then
      operation (s.leaf key node)
    else group (Definition.ownModule node) (planMembers (s.enter key node) node)
  | v => value v

def planMembers (s : Surroundings) : List (String × Json) → List (String × Node Leaf)
  | [] => []
  | (key, v) :: rest => (key, planValue s key v) :: planMembers s rest

end

/-- The plan of a definition.  A definition that is no object has an empty tree. -/
def plan : Json → Node Leaf
  | .object node => group (Definition.ownModule node) (planMembers (.ofRoot node) node)
  | _ => group none []

end Node
end OperationTree
