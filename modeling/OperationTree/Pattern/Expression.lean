import OperationTree.Pattern.Bracket
import OperationTree.Text.Alphanumeric

/-! Patterns: alternatives of parts that may be repeated and put into groups.  A text is a pattern
if all groups and brackets are closed, everything that is repeated is there, groups have different
names, and nothing lies too deep.  There is no looking around, and no repetition that is counted
between braces, since a pattern itself ends at the first brace that closes. -/

namespace OperationTree.Pattern

/-- How deep the parts of a pattern may lie within one another. -/
def depthLimit : Nat := 250

/-- A group that is being read, or the pattern itself. -/
structure Group where
  mode : Mode := {}
  /-- The alternatives that have ended. -/
  alternatives : Parts := {}
  /-- The parts of the last alternative. -/
  parts : Parts := {}
  /-- The depth of the last part, if it can be repeated. -/
  last : Option Nat := none

namespace Group

def add (g : Group) (depth : Nat) : Group :=
  { g with parts := g.parts.add depth, last := some depth }

/-- Goes on with other flags; they are a part that cannot be repeated. -/
def switch (g : Group) (flags : List Char) : Group :=
  { g with mode := g.mode.switch flags, parts := g.parts.add 0, last := none }

/-- Repeats the last part. -/
def repeatLast (g : Group) : Option Group :=
  g.last.map fun depth =>
    { g with
      parts := { g.parts with deepest := max g.parts.deepest (depth + 1) }
      last := some (depth + 1) }

def alternate (g : Group) : Group :=
  { g with alternatives := g.alternatives.add g.parts.depth, parts := {}, last := none }

/-- The depth of what has been read. -/
def depth (g : Group) : Nat := g.alternate.alternatives.depth

end Group

/-- What opens a group. -/
inductive Opening where
  | group (flags : List Char)
  | named (name : List Char)
  /-- Flags for the rest of the group around them. -/
  | flags (flags : List Char)
  deriving DecidableEq, Repr

/-- Whether a text names a group. -/
def isGroupName : List Char → Bool
  | [] => false
  | c :: rest =>
    (c == '_' || Text.isAlphabetic c) &&
      rest.all fun c => ['_', '.', '[', ']'].contains c || Text.isAlphanumeric c

/-- Reads the name of a group and what ends it. -/
def readName (cs : List Char) : Option (Opening × List Char) :=
  let name := cs.takeWhile fun c => c != '>'
  match cs.dropWhile fun c => c != '>' with
  | [] => none
  | _ :: rest => if isGroupName name then some (.named name, rest) else none

/-- Reads flags and what ends them: a colon in a group, or the end of the parenthesis. -/
def readFlags (cs : List Char) : Option (Opening × List Char) :=
  let isEnd (c : Char) : Bool := c == ':' || c == ')'
  let flags := cs.takeWhile fun c => !isEnd c
  if !areFlags flags then none
  else
    match cs.dropWhile fun c => !isEnd c with
    | ':' :: rest => some (.group flags, rest)
    | ')' :: rest => if flags.isEmpty then none else some (.flags flags, rest)
    | _ => none

/-- Reads what stands behind an opening parenthesis. -/
def readOpening : List Char → Option (Opening × List Char)
  | '?' :: 'P' :: '<' :: rest => readName rest
  | '?' :: '<' :: rest => readName rest
  | '?' :: rest => readFlags rest
  | rest => some (.group [], rest)

/-- Reads an element that stands by itself. -/
def readElement (m : Mode) : List Char → Option (List Char)
  | '\\' :: rest => (readEscape m rest).bind fun (e, rest) => if e.isPart m then some rest else none
  | '.' :: rest => if Element.any.isPart m then some rest else none
  | '\x7b' :: _ => none
  | _ :: rest => some rest
  | [] => none

/-- Reads a pattern to its end, inside the groups `outer`, and gives its depth; every step reads a
character. -/
def readDepth : (fuel : Nat) → Group → (outer : List Group) → (names : List (List Char)) →
    List Char → Option Nat
  | 0, _, _, _, _ => none
  | fuel + 1, g, outer, names, cs =>
    match g.mode.skip cs with
    | [] => if outer.isEmpty then some g.depth else none
    | '(' :: rest =>
      match readOpening (g.mode.skip rest) with
      | none => none
      | some (.flags flags, rest) => readDepth fuel (g.switch flags) outer names rest
      | some (.group flags, rest) =>
        readDepth fuel { mode := g.mode.switch flags } (g :: outer) names rest
      | some (.named name, rest) =>
        if names.contains name then none
        else readDepth fuel { mode := g.mode } (g :: outer) (name :: names) rest
    | ')' :: rest =>
      match outer with
      | [] => none
      | parent :: outer => readDepth fuel (parent.add (g.depth + 1)) outer names rest
    | '|' :: rest => readDepth fuel g.alternate outer names rest
    | '[' :: rest =>
      (readClass g.mode rest).bind fun (depth, rest) =>
        readDepth fuel (g.add depth) outer names rest
    | c :: rest =>
      if ['?', '*', '+'].contains c then
        let rest := if rest.head? = some '?' then rest.drop 1 else rest
        g.repeatLast.bind fun g => readDepth fuel g outer names rest
      else
        (readElement g.mode (c :: rest)).bind fun rest =>
          readDepth fuel (g.add 0) outer names rest

end Pattern

/-- Whether a text is a pattern. -/
def isPattern (cs : List Char) : Bool :=
  (Pattern.readDepth (cs.length + 1) {} [] [] cs).any fun depth => depth ≤ Pattern.depthLimit

end OperationTree
