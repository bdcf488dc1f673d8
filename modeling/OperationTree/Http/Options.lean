/-! Options of the HTTP transport. -/

namespace OperationTree.Http

structure Options where
  /-- How long a whole request may take. -/
  timeoutMilliseconds : Nat := 30000
  /-- The client's name, sent with every request that names none. -/
  userAgent : String := "request-builder/0.1.0"
  deriving DecidableEq, Repr

/-- The header that names the client. -/
def userAgentHeader : String := "User-Agent"

end OperationTree.Http
