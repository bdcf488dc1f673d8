import OperationTree.Json.Printer

/-! The plain text of a JSON value, as a URL, a form field or a statement shows it: strings without
quotes, arrays as their items with commas between, and nothing for null. -/

namespace OperationTree.Json

mutual

def plainChars : Json → List Char
  | null => []
  | bool true => ['t', 'r', 'u', 'e']
  | bool false => ['f', 'a', 'l', 's', 'e']
  | number n => n.chars
  | string s => s.toList
  | array items => plainItems items
  | object _ => "[object Object]".toList

def plainItems : List Json → List Char
  | [] => []
  | [x] => plainChars x
  | x :: rest => plainChars x ++ ',' :: plainItems rest

end

/-- The plain text of a value; every object reads `[object Object]`. -/
def plain (value : Json) : String := String.ofList value.plainChars

/-- Null, `false`, zero and the empty string are not truthy. -/
def truthy : Json → Bool
  | null => false
  | bool b => b
  | number n => !n.isZero
  | string s => !s.isEmpty
  | array _ | object _ => true

end OperationTree.Json
