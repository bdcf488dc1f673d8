import OperationTree.Text.Blank

/-! What the flags of a pattern switch, and how deep its parts lie within one another.  Flags hold
from their place to the end of the group they stand in. -/

namespace OperationTree.Pattern

/-- The flags that decide whether a pattern is well formed. -/
structure Mode where
  /-- Whether blanks and comments between the parts are left out. -/
  isSpaced : Bool := false
  /-- Whether a part may match any character; if not, it matches octets of ASCII. -/
  isUnicode : Bool := true
  deriving DecidableEq, Repr

/-- The letters of the flags. -/
def flagLetters : List Char := ['i', 'm', 's', 'U', 'u', 'R', 'x']

/-- Whether letters and at most one dash, which switches off what follows it, are flags. -/
def areFlags (flags : List Char) : Bool :=
  (flags.all fun c => c == '-' || flagLetters.contains c) &&
    flags.eraseDups.length == flags.length && flags.getLast? != some '-'

/-- What flags switch a letter to, if they hold it. -/
def switched? (flags : List Char) (letter : Char) : Option Bool :=
  if flags.contains letter then some ((flags.takeWhile fun c => c != '-').contains letter) else none

namespace Mode

/-- The mode after flags. -/
def switch (m : Mode) (flags : List Char) : Mode where
  isSpaced := (switched? flags 'x').getD m.isSpaced
  isUnicode := (switched? flags 'u').getD m.isUnicode

/-- Whether a class may stand, and may be negated if it is: what is not in a class of octets holds
octets beyond ASCII. -/
def allows (m : Mode) (isNegated : Bool) : Bool := m.isUnicode || !isNegated

/-- A text without the blanks and comments in front of it.  A comment starts with a number sign and
lasts to the end of the line. -/
def skipSpace : (inComment : Bool) → List Char → List Char
  | _, [] => []
  | true, c :: rest => skipSpace (c != '\n') rest
  | false, c :: rest =>
    if Text.isBlank c then skipSpace false rest
    else if c = '#' then skipSpace true rest
    else c :: rest

/-- The text from the next part on. -/
def skip (m : Mode) (cs : List Char) : List Char := if m.isSpaced then skipSpace false cs else cs

/-- The next character that is not blank, behind at most one number sign.  A dash in brackets looks
ahead this far. -/
def peek (m : Mode) (cs : List Char) : Option Char :=
  if m.isSpaced then
    match cs.dropWhile Text.isBlank with
    | '#' :: rest => (rest.dropWhile Text.isBlank).head?
    | cs => cs.head?
  else cs.head?

end Mode

/-- Parts that stand beside one another: how many there are, and the depth of the deepest. -/
structure Parts where
  count : Nat := 0
  deepest : Nat := 0
  deriving DecidableEq, Repr

namespace Parts

def add (p : Parts) (depth : Nat) : Parts where
  count := p.count + 1
  deepest := max p.deepest depth

/-- One part is as deep as it is; several lie one level down. -/
def depth (p : Parts) : Nat := if p.count ≤ 1 then p.deepest else p.deepest + 1

end Parts

end OperationTree.Pattern
