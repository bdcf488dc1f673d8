import OperationTree.Url.Template

/-! The settings that all operations of one compiled tree share: named URL bases and default
parameter values. -/

namespace OperationTree

/-- Named bases, and default values for parameters. -/
structure Settings where
  bases : List (String × String) := []
  params : Members := []

namespace Settings

/-- Replaces the value of `key` where it stands, or appends the pair. -/
def putBase : List (String × String) → String → String → List (String × String)
  | [], key, url => [(key, url)]
  | (k, u) :: rest, key, url =>
    if k = key then (k, url) :: rest else (k, u) :: putBase rest key url

def withBase (s : Settings) (name url : String) : Settings :=
  { s with bases := putBase s.bases name url }

def withParam (s : Settings) (name : String) (value : Json) : Settings :=
  { s with params := s.params.insert name value }

/-- The default parameters, if there are any. -/
def params? (s : Settings) : Option Members := if s.params.isEmpty then none else some s.params

def isDefault (s : Settings) : Bool := s.bases.isEmpty && s.params.isEmpty

/-- The name of the base for operations that name none. -/
def defaultBase : String := "default"

/-- The base for an operation: the one that its details name, else the default one, else none. -/
def baseFor (s : Settings) (details : Option Json) : String :=
  let named := (details.bind (·.string? "prefixType")).filter fun name => !name.isEmpty
  (s.bases.lookup (named.getD defaultBase)).getD ""

/-- Puts the pairs of an object of strings one by one; any other value is refused. -/
def basesOfMembers? : Members → List (String × String) → Option (List (String × String))
  | [], acc => some acc
  | (name, .string url) :: rest, acc => basesOfMembers? rest (putBase acc name url)
  | _, _ => none

/-- A map from strings to strings, each key with its last value. -/
def basesOfJson? (value : Json) : Option (List (String × String)) :=
  value.asObject?.bind (basesOfMembers? · [])

/-- Settings from JSON: an object with optional members `prefixes` and `params`, or an array of at
most these two.  Other members are ignored. -/
def ofJson? : Json → Option Settings
  | .object members => do
    let bases ← (Members.get? members "prefixes").elim (some []) basesOfJson?
    let params ← (Members.get? members "params").elim (some []) Json.asObject?
    return { bases, params }
  | .array [] => some {}
  | .array [bases] => do return { bases := ← basesOfJson? bases }
  | .array [bases, params] => do
    return { bases := ← basesOfJson? bases, params := ← params.asObject? }
  | _ => none

end Settings
end OperationTree
