import OperationTree.Numeric.Natural
import OperationTree.Pattern.Expression

/-! Filter directives for the log.  A filter is a list of directives with commas between them; each
is a level, a target, or a target or a span with a level, as in `a=info,b[span]=debug`.  Only the
form is judged here. -/

namespace OperationTree.LogFilter

/-- Why a filter is refused. -/
inductive Fault where
  /-- A directive has not the form of one. -/
  | malformed
  /-- A part of a directive would start or end within a character. -/
  | splitCharacter
  deriving DecidableEq, Repr

def levelNames : List String := ["error", "warn", "info", "debug", "trace", "off"]

/-- A level is a number up to 5 or a name in any letter case; without a text it is the default. -/
def isLevel (cs : List Char) : Bool :=
  let text := String.ofList cs
  text.isEmpty || (natural? 6 text).isSome || levelNames.contains text.toLower

/-- A target starts with a letter, a digit, a dash, a colon or an underscore. -/
def startsTarget (c : Char) : Bool :=
  Text.isAlphanumeric c || c == '-' || c == ':' || c == '_'

/-- How far a directive has been read; `start` counts the octets before a part of it. -/
inductive State where
  | start
  | word
  | span (start : Nat)
  | field (start : Nat)
  | afterField
  | afterSpan
  | level (start : Nat)
  deriving DecidableEq, Repr

/-- A text without its first octets, unless the last of them lies within a character. -/
def dropOctets? : Nat → List Char → Option (List Char)
  | 0, cs => some cs
  | _ + 1, [] => none
  | n + 1, c :: rest => if c.utf8Size ≤ n + 1 then dropOctets? (n + 1 - c.utf8Size) rest else none

/-- The first octets of a text, unless the last of them lies within a character. -/
def takeOctets? : Nat → List Char → Option (List Char)
  | 0, _ => some []
  | _ + 1, [] => none
  | n + 1, c :: rest =>
    if c.utf8Size ≤ n + 1 then (takeOctets? (n + 1 - c.utf8Size) rest).map (c :: ·) else none

/-- The text from the octet `start` on. -/
def tail (text : List Char) (start : Nat) : Except Fault (List Char) :=
  (dropOctets? start text).elim (.error .splitCharacter) .ok

/-- The part of a text between the octets `start` and `stop`. -/
def part (text : List Char) (start stop : Nat) : Except Fault (List Char) :=
  (tail text start).bind fun rest =>
    (takeOctets? (stop - start) rest).elim (.error .splitCharacter) .ok

/-- The letters after a sign that name an infinity or no number. -/
def isNonFinite (cs : List Char) : Bool :=
  ["inf", "infinity", "nan"].contains (String.ofList cs).toLower

/-- Whether a text is an exponent, or empty. -/
def isExponent : List Char → Bool
  | [] => true
  | mark :: rest =>
    let digits :=
      match rest with
      | '+' :: digits | '-' :: digits => digits
      | digits => digits
    (mark == 'e' || mark == 'E') && !digits.isEmpty && digits.all Char.isDigit

/-- Digits with a point among or around them, and an exponent. -/
def isDecimal (cs : List Char) : Bool :=
  let whole := cs.takeWhile Char.isDigit
  match cs.dropWhile Char.isDigit with
  | '.' :: rest =>
    let fraction := rest.takeWhile Char.isDigit
    !(whole ++ fraction).isEmpty && isExponent (rest.dropWhile Char.isDigit)
  | rest => !whole.isEmpty && isExponent rest

/-- Whether a text is a number, with or without a sign. -/
def isNumber (cs : List Char) : Bool :=
  let unsigned :=
    match cs with
    | '+' :: rest | '-' :: rest => rest
    | cs => cs
  isNonFinite unsigned || isDecimal unsigned

/-- A field is a name, or a name with a value that is a number or a pattern. -/
def isField (cs : List Char) : Bool :=
  !cs.isEmpty &&
    match cs.dropWhile fun c => c != '=' with
    | [] => true
    | _ :: value =>
      let value := value.takeWhile fun c => c != '='
      isNumber value || isPattern value

/-- Reads the character that stands after `index` octets of a directive without blanks at its ends.
The parts of the directive are taken from its text with the blanks. -/
def step (text : List Char) (index : Nat) (c : Char) : State → Except Fault State
  | .start =>
    if c = '[' then .ok (.span (index + 1))
    else if startsTarget c then .ok .word
    else .error .malformed
  | .word =>
    if c = '=' then (part text 0 index).map fun _ => .level (index + 1)
    else if c = '[' then (part text 0 index).map fun _ => .span (index + 1)
    else .ok .word
  | .span start =>
    if c = ']' then (part text start index).map fun _ => .afterSpan
    else if c = '\x7b' then (part text start index).map fun _ => .field (index + 1)
    else .ok (.span start)
  | .field start =>
    if c = '\x7d' then
      (part text start index).bind fun field =>
        if isField field then .ok .afterField else .error .malformed
    else .ok (.field start)
  | .afterField => if c = ']' then .ok .afterSpan else .error .malformed
  | .afterSpan => if c = '=' then .ok (.level (index + 1)) else .error .malformed
  | .level start => .ok (.level start)

/-- Reads the rest of a directive. -/
def scan (text : List Char) : (index : Nat) → State → List Char → Except Fault State
  | _, state, [] => .ok state
  | index, state, c :: rest =>
    (step text index c state).bind fun state => scan text (index + c.utf8Size) state rest

/-- Whether a directive may end in a state. -/
def finish (text : List Char) : State → Except Fault Unit
  | .word | .afterSpan => .ok ()
  | .level start =>
    (tail text start).bind fun level => if isLevel level then .ok () else .error .malformed
  | _ => .error .malformed

/-- Judges the form of one directive. -/
def checkDirective (text : List Char) : Except Fault Unit :=
  (scan text 0 .start (Text.trim text)).bind (finish text)

/-- Judges directives in turn; the first one that is refused decides. -/
def checkAll : List String → Except Fault Unit
  | [] => .ok ()
  | directive :: rest => (checkDirective directive.toList).bind fun _ => checkAll rest

/-- Judges the form of a filter; empty directives are left out. -/
def check (filter : String) : Except Fault Unit :=
  checkAll ((filter.splitOn ",").filter fun directive => !directive.isEmpty)

end OperationTree.LogFilter
