import OperationTree.Sql.Statement

/-! The query that a call sends to the database: a statement with question marks, and a value for
each of them. -/

namespace OperationTree.Sql

inductive Bind where
  | null
  | bool (value : Bool)
  /-- An integer that fits 64 bits with a sign. -/
  | int (value : Int)
  /-- An integer that fits 64 bits without a sign only. -/
  | uint (value : Nat)
  | double (value : Double)
  | text (value : String)
  deriving DecidableEq, Repr

/-- Arrays and objects are bound as their JSON text. -/
def Bind.ofJson : Json → Bind
  | .null => null
  | .bool b => bool b
  | .number (.int n) => if n < 0x8000000000000000 then int n else uint n.toNat
  | .number (.double x) => double x
  | .string s => text s
  | value => text value.compact

structure Query where
  sql : String
  binds : List Bind
  deriving DecidableEq, Repr

def Query.ofStatement (statement : String) (params : Option Members) : Query :=
  let bound := bind statement params
  { sql := bound.sql, binds := bound.binds.map Bind.ofJson }

/-- The statement of an operation, with its column map or else its parent's written out. -/
def prepare? (details : Json) (parent : Option Json) : Option String := do
  let sql ← (details.get? "SQL").bind join?
  return expandColumns sql <|
    (details.object? columnMapKey).or (parent.bind (·.object? columnMapKey))

end OperationTree.Sql
