import OperationTree.Pattern.Element

/-! Classes in brackets.  Members stand beside one another, brackets stand in brackets, and between
members there are operations on sets, each of which takes all that stands before it.  A class that
matches octets must hold none beyond ASCII, so neither a bracket nor a name is negated there. -/

namespace OperationTree.Pattern

/-- A bracket that is being read. -/
structure Bracket where
  /-- Whether at most dashes have been read, which then are members. -/
  isFresh : Bool := true
  /-- The depth of the set in front of the last operation. -/
  left : Option Nat := none
  members : Parts := {}

namespace Bracket

/-- Adds a member. -/
def add (b : Bracket) (depth : Nat) : Bracket :=
  { b with isFresh := false, members := b.members.add depth }

/-- The depth of what has been read; an operation lies one level above its two sets. -/
def depth (b : Bracket) : Nat :=
  b.left.elim b.members.depth fun left => max left b.members.depth + 1

/-- Goes on behind an operation. -/
def operate (b : Bracket) : Bracket := { isFresh := false, left := some b.depth }

/-- A character that is a member because it stands at the start of a bracket: a dash, or a closing
bracket that nothing stands in front of. -/
def takes (b : Bracket) (c : Char) : Bool :=
  b.isFresh && (c == '-' || c == ']' && b.members.count == 0)

/-- Adds a character at the start of a bracket. -/
def take (b : Bracket) (c : Char) : Bracket := { b.add 0 with isFresh := c == '-' }

end Bracket

/-- Goes behind what opens a bracket. -/
def openBracket (m : Mode) (cs : List Char) : Option (List Char) :=
  match m.skip cs with
  | '^' :: rest => if m.allows true then some rest else none
  | cs => some cs

/-- The classes that have a name between colons. -/
def classNames : List String :=
  ["alnum", "alpha", "ascii", "blank", "cntrl", "digit", "graph", "lower", "print", "punct",
    "space", "upper", "word", "xdigit"]

/-- The text behind a name and the end of its bracket, if a class has the name. -/
def afterName? (cs : List Char) : Option (List Char) :=
  match cs.dropWhile fun c => c != ':' with
  | ':' :: ']' :: rest =>
    if classNames.contains (String.ofList (cs.takeWhile fun c => c != ':')) then some rest else none
  | _ => none

/-- Reads a class by its name, behind the opening bracket, and whether it is negated. -/
def readNamed? : List Char → Option (Bool × List Char)
  | ':' :: '^' :: rest => (afterName? rest).map fun rest => (true, rest)
  | ':' :: rest => (afterName? rest).map fun rest => (false, rest)
  | _ => none

def readMember (m : Mode) : List Char → Option (Element × List Char)
  | [] => none
  | '\\' :: rest => readEscape m rest
  | c :: rest => some (.character c false, rest)

/-- Whether two elements are the ends of a range. -/
def areRange : Element → Element → Bool
  | .character first _, .character last _ => first.toNat ≤ last.toNat
  | _, _ => false

/-- Reads a member or a range.  A dash makes a range unless it ends the bracket or is one of two. -/
def readRange (m : Mode) (cs : List Char) : Option (List Char) :=
  (readMember m cs).bind fun (first, rest) =>
    if !first.isMember m then none
    else
      match m.skip rest with
      | [] => none
      | '-' :: after =>
        if m.peek after = some ']' || m.peek after = some '-' then some ('-' :: after)
        else
          (readMember m (m.skip after)).bind fun (last, rest) =>
            if last.isMember m && areRange first last then some rest else none
      | rest => some rest

/-- Whether a character stands twice for an operation on sets. -/
def isOperator (c : Char) : Bool := ['&', '-', '~'].contains c

/-- Reads a bracket to its end, inside the brackets `outer`, and gives the depth of the outermost;
every step reads a character. -/
def readBracket (m : Mode) :
    (fuel : Nat) → Bracket → (outer : List Bracket) → List Char → Option (Nat × List Char)
  | 0, _, _, _ => none
  | fuel + 1, b, outer, cs =>
    match m.skip cs with
    | [] => none
    | c :: rest =>
      if b.takes c then readBracket m fuel (b.take c) outer rest
      else if c = '[' then
        match readNamed? rest with
        | some (isNegated, rest) =>
          if m.allows isNegated then readBracket m fuel (b.add 0) outer rest else none
        | none => (openBracket m rest).bind fun rest => readBracket m fuel {} (b :: outer) rest
      else if c = ']' then
        match outer with
        | [] => some (b.depth + 1, rest)
        | parent :: outer => readBracket m fuel (parent.add (b.depth + 1)) outer rest
      else if isOperator c && rest.head? = some c then
        readBracket m fuel b.operate outer (rest.drop 1)
      else (readRange m (c :: rest)).bind fun rest => readBracket m fuel (b.add 0) outer rest

/-- Reads a class behind its opening bracket, and gives its depth. -/
def readClass (m : Mode) (cs : List Char) : Option (Nat × List Char) :=
  (openBracket m cs).bind fun rest => readBracket m (rest.length + 1) {} [] rest

end OperationTree.Pattern
