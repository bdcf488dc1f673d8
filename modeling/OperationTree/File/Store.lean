import OperationTree.SystemError

/-! A directory of files.  A path is followed component by component from the directory; nothing can
be found outside it. -/

namespace OperationTree.File

/-- Files by the components of their paths. -/
structure Store where
  entries : List (List String × List UInt8) := []

inductive Place where
  | directory (path : List String)
  /-- A directory outside the store. -/
  | beyond
  | content (bytes : List UInt8)

namespace Store

def components (path : String) : List String := path.splitOn "/"

/-- Writes a file, in place of one with the same path. -/
def write (s : Store) (path : String) (bytes : List UInt8) : Store where
  entries := (components path, bytes) :: s.entries.filter fun entry => entry.1 != components path

/-- What the component `name` of the directory `path` is. -/
def child (s : Store) (path : List String) (name : String) : Except SystemError Place :=
  match s.entries.lookup (path ++ [name]) with
  | some bytes => .ok (.content bytes)
  | none =>
    if s.entries.any fun entry => (path ++ [name]).isPrefixOf entry.1 then
      .ok (.directory (path ++ [name]))
    else .error .notFound

/-- The longest name of a directory's component, in octets. -/
def nameLimit : Nat := 255

def enter (s : Store) (place : Place) (name : String) : Except SystemError Place :=
  match place with
  | .content _ => .error .notDirectory
  | place =>
    if name = "" || name = "." then .ok place
    else if name.utf8ByteSize > nameLimit then .error .nameTooLong
    else
      match place with
      | .directory path =>
        if name = ".." then .ok (if path.isEmpty then .beyond else .directory path.dropLast)
        else s.child path name
      | _ => if name = ".." then .ok .beyond else .error .notFound

/-- A path has fewer octets than this. -/
def pathLimit : Nat := 4096

def find (s : Store) (path : String) : Except SystemError Place :=
  if path.toList.contains '\x00' then .error .nulInName
  else if path.isEmpty then .error .notFound
  else if path.utf8ByteSize ≥ pathLimit then .error .nameTooLong
  else
    (components path).foldlM s.enter (if path.startsWith "/" then .beyond else .directory [])

def read (s : Store) (path : String) : Except SystemError (List UInt8) :=
  match s.find path with
  | .ok (.content bytes) => .ok bytes
  | .ok _ => .error .isDirectory
  | .error e => .error e

end Store
end OperationTree.File
