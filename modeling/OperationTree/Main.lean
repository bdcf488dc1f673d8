import OperationTree.CommandLine.Report

/-! The program: it reads the files that a command line needs, and prints the report of the run. -/

namespace OperationTree.Main

/-- Whether a code stands for error `n` of the system; some codes are negated. -/
def isCode (code : UInt32) (n : UInt32) : Bool := code == n || code == 0 - n

/-- The failure that an error of the system stands for. -/
def systemError : IO.Error → SystemError
  | .inappropriateType _ code _ => if isCode code 20 then .notDirectory else .isDirectory
  | .invalidArgument _ code _ => if isCode code 36 then .nameTooLong else .nulInName
  | _ => .notFound

/-- Reads a file, or tells why it cannot be read. -/
def readFile (path : String) : IO (Except SystemError (List UInt8)) := do
  try return .ok (← IO.FS.readBinFile path).toList
  catch e => return .error (systemError e)

/-- The contents of files, as a reader of these files. -/
def readFiles (paths : List String) : IO FileReader := do
  let contents ← paths.mapM fun path => return (path, ← readFile path)
  return fun path => (contents.lookup path).getD (.error .notFound)

/-- The paths of the documents that a command line names. -/
def documentPaths (args : List String) : List String :=
  match CommandLine.Parsed.ofList args with
  | .run arguments => arguments.definition :: arguments.config.toList
  | _ => []

/-- The paths of the files that the operations of the definitions among documents read. -/
def operationPaths (files : FileReader) (paths : List String) : List String :=
  paths.flatMap fun path =>
    match Document.definition files path with
    | .ok definition => CommandLine.locations definition
    | .error _ => []

end OperationTree.Main

open OperationTree in
def main (args : List String) : IO UInt32 := do
  let paths := Main.documentPaths args
  let documents ← Main.readFiles paths
  let files ← Main.readFiles (paths ++ Main.operationPaths documents paths)
  let logLevel ← IO.getEnv CommandLine.logVariable
  let report := CommandLine.run { files } logLevel args
  if report.loggingFailed then IO.eprintln "failed to initialise logging"
  if report.exitCode = 2 then IO.eprint CommandLine.usageText
  IO.print report.output
  if let some failure := report.failure then IO.eprintln ("error: " ++ failure)
  return report.exitCode.toUInt32
