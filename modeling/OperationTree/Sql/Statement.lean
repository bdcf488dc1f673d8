import OperationTree.Url.Template

/-! SQL text with named parameters `:name`.  Binding replaces the tokens of given names by question
marks and lists their values; a column map is written out as a select list. -/

namespace OperationTree.Sql

/-- A part of a statement: one character of running text, or a token by its name. -/
inductive Piece where
  | text (c : Char)
  | token (name : List Char)
  deriving DecidableEq, Repr

/-- A colon alone is text. -/
def Piece.ofName (name : List Char) : Piece := if name.isEmpty then .text ':' else .token name

def Piece.chars : Piece → List Char
  | text c => [c]
  | token name => ':' :: name

/-- Scans a statement; `pending` holds the characters after an open colon in reverse. -/
def scan : (pending : Option (List Char)) → List Char → List Piece
  | none, [] => []
  | none, c :: rest => if c = ':' then scan (some []) rest else .text c :: scan none rest
  | some name, [] => [.ofName name.reverse]
  | some name, c :: rest =>
    if Url.isWord c then scan (some (c :: name)) rest
    else .ofName name.reverse ::
      if c = ':' then scan (some []) rest else .text c :: scan none rest

/-- The pieces of a statement: tokens are as long as possible. -/
def pieces (sql : List Char) : List Piece := scan none sql

/-- A statement with question marks, and the values for them in order. -/
structure Bound where
  sql : String
  binds : List Json

/-- The characters of a piece after binding, and the value that it binds. -/
def bindPiece (params : Members) : Piece → List Char × Option Json
  | .token name =>
    match params.get? (String.ofList name) with
    | some value => (['?'], some value)
    | none => (':' :: name, none)
  | piece => (piece.chars, none)

/-- Replaces the tokens of given names by question marks; other tokens stay. -/
def bind (sql : String) (params : Option Members) : Bound :=
  let bound := (pieces sql.toList).map (bindPiece (params.getD []))
  { sql := String.ofList (bound.flatMap Prod.fst), binds := bound.filterMap Prod.snd }

/-- The statement that details hold: a text, or an array of parts with blanks between them. -/
def join? : Json → Option String
  | .string text => some text
  | .array parts => some (" ".intercalate (parts.map Json.plain))
  | _ => none

/-- A column map as a select list. -/
def columnList (columns : Members) : String :=
  ", ".intercalate (columns.map fun (column, label) => column ++ " as " ++ label.plain)

/-- The key of the column map in operation details. -/
def columnMapKey : String := "COL_MAP"

/-- The text with the first occurrence of `pattern` replaced. -/
def replaceFirst (pattern replacement : List Char) : List Char → List Char
  | [] => []
  | c :: rest =>
    match Url.dropLead? pattern (c :: rest) with
    | some after => replacement ++ after
    | none => c :: replaceFirst pattern replacement rest

/-- The statement with the first `:COL_MAP` replaced by the select list. -/
def expandColumns (sql : String) (columns : Option Members) : String :=
  match columns with
  | none => sql
  | some columns =>
    String.ofList
      (replaceFirst (':' :: columnMapKey.toList) (columnList columns).toList sql.toList)

end OperationTree.Sql
