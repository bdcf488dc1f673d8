/-! Dotted paths.  A path joins the keys that lead to a node by dots, and looking a path up splits
it at every dot. -/

namespace OperationTree.Path

/-- The path of a key below a parent; below the root it is the key itself. -/
def join (parent key : String) : String :=
  if parent.isEmpty then key else parent ++ "." ++ key

/-- The parts of a text between its dots. -/
def splitChars : List Char → List (List Char)
  | [] => [[]]
  | c :: rest =>
    if c = '.' then [] :: splitChars rest
    else
      match splitChars rest with
      | [] => [[c]]
      | part :: parts => (c :: part) :: parts

def split (path : String) : List String := (splitChars path.toList).map String.ofList

end OperationTree.Path
