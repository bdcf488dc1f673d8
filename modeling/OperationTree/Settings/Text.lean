import OperationTree.Json.Reader
import OperationTree.Settings

/-! Settings as a JSON text.  A text is read member by member: a member of the settings may stand in
it once only, and other members are skipped over, so that they need only be well formed. -/

namespace OperationTree.Settings

open Json Reader

/-- A string from the start of a text. -/
def readString (cs : List Char) : Option (String × List Char) :=
  match skipBlanks cs with
  | '"' :: rest => (chars .value rest).map fun (cs, rest) => (String.ofList cs, rest)
  | _ => none

/-- An object whose values are all strings; a later value of a key replaces an earlier one. -/
def readBases (cs : List Char) : Option (List (String × String) × List Char) :=
  match skipBlanks cs with
  | '\x7b' :: rest =>
    (container (member .value fun _ => readString) '\x7d' rest).map fun (pairs, rest) =>
      (pairs.foldl (fun bases pair => putBase bases pair.1 pair.2) [], rest)
  | _ => none

/-- An object below the settings. -/
def readParams (cs : List Char) : Option (Members × List Char) :=
  match value .value (nestingLimit - 1) cs with
  | some (.object params, rest) => some (params, rest)
  | _ => none

inductive Field where
  | bases (bases : List (String × String))
  | params (params : Members)
  | other

def readField (key : String) (cs : List Char) : Option (Field × List Char) :=
  match key with
  | "prefixes" => (readBases cs).map fun (bases, rest) => (.bases bases, rest)
  | "params" => (readParams cs).map fun (params, rest) => (.params params, rest)
  | _ => (value .skip cs.length cs).map fun (_, rest) => (.other, rest)

/-- The settings with the given fields, each of which may come once. -/
def ofFields? (fields : List Field) : Option Settings :=
  let bases := fields.filterMap fun | .bases x => some x | _ => none
  let params := fields.filterMap fun | .params x => some x | _ => none
  if bases.length ≤ 1 && params.length ≤ 1 then
    some { bases := bases.head?.getD [], params := params.head?.getD [] }
  else none

/-- The fields in their order as the items of an array, after its bracket. -/
def readItems (cs : List Char) : Option (Settings × List Char) :=
  match skipBlanks cs with
  | ']' :: rest => some ({}, rest)
  | cs => do
    let (bases, rest) ← readBases cs
    match skipBlanks rest with
    | ']' :: rest => some ({ bases }, rest)
    | ',' :: rest =>
      let (params, rest) ← readParams rest
      match skipBlanks rest with
      | ']' :: rest => some ({ bases, params }, rest)
      | _ => none
    | _ => none

/-- Settings from the start of a text, and the rest. -/
def read (cs : List Char) : Option (Settings × List Char) :=
  match skipBlanks cs with
  | '\x7b' :: rest => do
    let (members, rest) ← container (member .value readField) '\x7d' rest
    return (← ofFields? (members.map Prod.snd), rest)
  | '[' :: rest => readItems rest
  | _ => none

/-- The settings that a JSON text denotes. -/
def parse? (text : String) : Option Settings := whole read text.toList

end OperationTree.Settings
