/-! Failures that the operating system reports, with their texts. -/

namespace OperationTree

inductive SystemError where
  | notFound
  | notDirectory
  | isDirectory
  | nameTooLong
  | networkUnreachable
  /-- A file name with a NUL character never reaches the system. -/
  | nulInName
  deriving DecidableEq, Repr

def SystemError.message : SystemError → String
  | notFound => "No such file or directory (os error 2)"
  | notDirectory => "Not a directory (os error 20)"
  | isDirectory => "Is a directory (os error 21)"
  | nameTooLong => "File name too long (os error 36)"
  | networkUnreachable => "Network is unreachable (os error 101)"
  | nulInName => "file name contained an unexpected NUL byte"

end OperationTree
