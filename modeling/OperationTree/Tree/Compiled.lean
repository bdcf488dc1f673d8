import OperationTree.Catalog
import OperationTree.Tree.Plan

/-! Compiled trees.  The modules of all leaves are loaded in the order of the definition, and then
every leaf becomes an operation that can be called. -/

namespace OperationTree

inductive Action where
  /-- Every call fails at once, because no module gives a function; it is not registered. -/
  | unavailable (module : Option String)
  /-- Every call is registered and does its job. -/
  | tracked (start : Request → Job)

structure Operation where
  site : Site
  path : String
  module : Option String
  isCanned : Bool
  action : Action

namespace Operation

/-- The function of a canned operation: the transport's, or else the default response. -/
def cannedCall (context : Context) (transport : Option Transport) (node : Members) :
    Request → Job :=
  (transport.bind fun t => t.canned? context node).getD fun _ =>
    .finished (.ok (Canned.ofNode node).defaultResponse)

/-- The function that a transport gives a leaf, if any. -/
def transportCall? (context : Context) (transport : Option Transport) (leaf : Leaf) :
    Option (Request → Job) := do
  (← transport).call? context (← Definition.ownDetails leaf.node) leaf.parentDetails

/-- What a call of a leaf does, given the transport that its module names. -/
def actionOf (context : Context) (transport : Option Transport) (leaf : Leaf) : Action :=
  if leaf.isCanned then .tracked (cannedCall context transport leaf.node)
  else
    match transportCall? context transport leaf with
    | some start => .tracked start
    | none => .unavailable (transport.map Transport.name)

/-- The operation of a leaf in a tree with the given number. -/
def ofLeaf (settings : Settings) (loaded : Loaded) (tree : Nat) (leaf : Leaf) : Operation :=
  let site : Site := { tree, keys := leaf.keys }
  let transport := (leaf.module.bind loaded.find?).map Instance.transport
  { site
    path := leaf.path
    module := leaf.module
    isCanned := leaf.isCanned
    action := actionOf { settings, site } transport leaf }

end Operation

/-- A definition whose operations can be called. -/
structure Compiled where
  root : Node Operation
  loaded : Loaded

namespace Compiled

/-- The effective modules of all leaves, depth first. -/
def modules (plan : Node Leaf) : List String := plan.operations.filterMap Leaf.module

/-- Compiles a definition as the tree with the given number. -/
def ofDefinition (catalog : Catalog) (settings : Settings) (tree : Nat) (definition : Json) :
    Compiled :=
  let plan := Node.plan definition
  let loaded := Loaded.ofNames catalog (modules plan)
  { root := plan.map (Operation.ofLeaf settings loaded tree), loaded }

/-- The paths of all operations, depth first. -/
def paths (c : Compiled) : List String := c.root.operations.map Operation.path

end Compiled
end OperationTree
