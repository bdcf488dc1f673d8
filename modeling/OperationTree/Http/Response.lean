import OperationTree.CallError
import OperationTree.Json.Reader

/-! What an HTTP response means to its caller.  A status from 200 up to below 400 is a success, and
its body is a JSON value or else plain text. -/

namespace OperationTree.Http

structure Response where
  status : Nat
  body : String

/-- The standard reasons of failing statuses. -/
def reasons : List (Nat × String) := [
  (400, "Bad Request"), (401, "Unauthorized"), (402, "Payment Required"), (403, "Forbidden"),
  (404, "Not Found"), (405, "Method Not Allowed"), (406, "Not Acceptable"),
  (407, "Proxy Authentication Required"), (408, "Request Timeout"), (409, "Conflict"),
  (410, "Gone"), (411, "Length Required"), (412, "Precondition Failed"),
  (413, "Payload Too Large"), (414, "URI Too Long"), (415, "Unsupported Media Type"),
  (416, "Range Not Satisfiable"), (417, "Expectation Failed"), (418, "I'm a teapot"),
  (421, "Misdirected Request"), (422, "Unprocessable Entity"), (423, "Locked"),
  (424, "Failed Dependency"), (425, "Too Early"), (426, "Upgrade Required"),
  (428, "Precondition Required"), (429, "Too Many Requests"),
  (431, "Request Header Fields Too Large"), (451, "Unavailable For Legal Reasons"),
  (500, "Internal Server Error"), (501, "Not Implemented"), (502, "Bad Gateway"),
  (503, "Service Unavailable"), (504, "Gateway Timeout"), (505, "HTTP Version Not Supported"),
  (506, "Variant Also Negotiates"), (507, "Insufficient Storage"), (508, "Loop Detected"),
  (510, "Not Extended"), (511, "Network Authentication Required")]

/-- The reason of a status, empty where there is none. -/
def reason (status : Nat) : String := (reasons.lookup status).getD ""

namespace Response

def isSuccess (r : Response) : Bool := 200 ≤ r.status && r.status < 400

/-- The JSON value that a body denotes, or the body as a text. -/
def value (r : Response) : Json := (Json.parse? r.body).getD (.string r.body)

/-- The result of a request to a URL. -/
def outcome (url : String) (r : Response) : Except CallError Json :=
  if r.isSuccess then .ok r.value else .error (.status url r.status (reason r.status) r.body)

end Response
end OperationTree.Http
