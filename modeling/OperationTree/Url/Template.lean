import OperationTree.Url.Component

/-! URL templates.  A template names its parameters by tokens `:name`, and a relative template is
completed by a base that stands in front of it. -/

namespace OperationTree.Url

/-- The characters of a parameter name in running text: letters, digits and the underscore. -/
def isWord (c : Char) : Bool := c.isAlphanum || c == '_'

/-- A text is absolute when it starts with a word and `://`. -/
def isAbsoluteChars (cs : List Char) : Bool :=
  !(cs.takeWhile isWord).isEmpty && [':', '/', '/'].isPrefixOf (cs.dropWhile isWord)

def isAbsolute (url : String) : Bool := isAbsoluteChars url.toList

/-- The URL behind its base, unless it is absolute. -/
def qualify (base url : String) : String := if isAbsolute url then url else base ++ url

/-- A token ends where no further word character follows. -/
def endsToken : List Char → Bool
  | [] => true
  | c :: _ => !isWord c

/-- What remains of a text after `lead`, if it starts with it. -/
def dropLead? : (lead text : List Char) → Option (List Char)
  | [], text => some text
  | _ :: _, [] => none
  | x :: lead, c :: text => if x = c then dropLead? lead text else none

/-- The text before and after the first occurrence of `:name` that ends as a token, from behind the
next `skip` characters on.  An occurrence that does not end as a token is passed over as a whole, so
occurrences never overlap. -/
def splitTokenFrom? (name : List Char) : (skip : Nat) → List Char → Option (List Char × List Char)
  | _, [] => none
  | skip + 1, c :: rest =>
    (splitTokenFrom? name skip rest).map fun (before, after) => (c :: before, after)
  | 0, c :: rest =>
    match dropLead? (':' :: name) (c :: rest) with
    | none => (splitTokenFrom? name 0 rest).map fun (before, after) => (c :: before, after)
    | some after =>
      if endsToken after then some ([], after)
      else
        (splitTokenFrom? name name.length rest).map fun (before, after) => (c :: before, after)

def splitToken? (name text : List Char) : Option (List Char × List Char) :=
  splitTokenFrom? name 0 text

/-- The template with the first token of one parameter replaced by the encoded value. -/
def substituteOne (template : List Char) (name : String) (value : Json) : List Char :=
  match splitToken? name.toList template with
  | none => template
  | some (before, after) => before ++ encodeParam value ++ after

/-- The template with the parameters substituted one after the other, in order. -/
def substituteChars (template : List Char) (params : Members) : List Char :=
  params.foldl (fun text param => substituteOne text param.1 param.2) template

/-- The template with the first token of every given parameter replaced. -/
def substitute (template : String) (params : Option Members) : String :=
  match params with
  | none => template
  | some params => String.ofList (substituteChars template.toList params)

end OperationTree.Url
