import OperationTree.Outside.Exchange

/-! Aggregates: operations that call others with one request and merge the objects they give. -/

namespace OperationTree.Aggregate

/-- The paths of the operations that details list, if all of them are strings. -/
def targets? (details : Json) : Option (List String) :=
  ((details.get? "operationIds").bind Json.asArray?).bind (·.mapM Json.asString?)

/-- The members of all objects among values, put one after the other. -/
def merged (results : List Json) : Members :=
  (results.filterMap Json.asObject?).foldl Members.extend []

/-- The merged object; without any object there is nothing to merge. -/
def merge (results : List Json) : Outcome :=
  if results.any Json.isObject then .ok (.object (merged results)) else .error .aggregate

end OperationTree.Aggregate
