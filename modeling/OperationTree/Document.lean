import OperationTree.Settings.Text
import OperationTree.SystemError
import OperationTree.Text.Utf8

/-! Documents in files: definitions and settings. -/

namespace OperationTree

/-- What reading a file by its path gives. -/
abbrev FileReader := String → Except SystemError (List UInt8)

namespace Document

/-- Why a document of some kind cannot be used. -/
inductive Fault where
  | unreadable (kind path reason : String)
  | malformed (kind path : String)
  deriving DecidableEq, Repr

def Fault.message : Fault → String
  | unreadable kind path reason => "reading " ++ kind ++ " " ++ path ++ ": " ++ reason
  | malformed kind path => "parsing " ++ kind ++ " " ++ path

def notText : String := "stream did not contain valid UTF-8"

/-- The text of the file at a path. -/
def text (files : FileReader) (kind path : String) : Except Fault String :=
  match files path with
  | .error e => .error (.unreadable kind path e.message)
  | .ok bytes =>
    match Utf8.decode bytes with
    | .error _ => .error (.unreadable kind path notText)
    | .ok text => .ok text

/-- What `parse?` makes of the text of the file at a path. -/
def read {α : Type} (parse? : String → Option α) (files : FileReader) (kind path : String) :
    Except Fault α :=
  match text files kind path with
  | .error fault => .error fault
  | .ok text =>
    match parse? text with
    | none => .error (.malformed kind path)
    | some x => .ok x

def definition (files : FileReader) (path : String) : Except Fault Json :=
  read Json.parse? files "definition" path

def settings (files : FileReader) (path : String) : Except Fault Settings :=
  read Settings.parse? files "settings file" path

end Document
end OperationTree
