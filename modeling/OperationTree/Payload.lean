import OperationTree.Url.Component

/-! What is sent as the body of a request, and the headers that decide its form. -/

namespace OperationTree

/-- The body of a request. -/
inductive Payload where
  | text (content : String)
  /-- Fields of a multipart form, in order. -/
  | form (fields : List (String × String))
  /-- A value that no content type transforms. -/
  | raw (value : Json)

namespace Payload

def contentTypeHeader : String := "Content-Type"

def enctypeHeader : String := "enctype"

def jsonType : String := "application/json;charset=UTF-8"

def urlEncodedType : String := "application/x-www-form-urlencoded;charset=utf-8"

def formDataType : String := "multipart/form-data"

/-- A header that is a nonempty string. -/
def textHeader? (headers : Members) (name : String) : Option String :=
  ((headers.get? name).bind Json.asString?).filter fun text => !text.isEmpty

/-- The content type that headers state, by `Content-Type` or else by `enctype`. -/
def contentType? (headers : Members) : Option String :=
  (textHeader? headers contentTypeHeader).or (textHeader? headers enctypeHeader)

/-- The headers with the JSON content type for PUT and POST requests that state none. -/
def withDefaultType (method : String) (headers : Members) : Members :=
  if (method == "PUT" || method == "POST") && (contentType? headers).isNone then
    headers.insert contentTypeHeader (.string jsonType)
  else headers

/-- A text with every `%20` written as a plus sign. -/
def plusBlanks : List Char → List Char
  | '%' :: '2' :: '0' :: rest => '+' :: plusBlanks rest
  | c :: rest => c :: plusBlanks rest
  | [] => []

/-- The fields of an object as `key=value` with `&` between them. -/
def queryChars : Members → List Char
  | [] => []
  | [(key, value)] => Url.encodeChars key.toList ++ '=' :: Url.encodeParam value
  | (key, value) :: rest =>
    Url.encodeChars key.toList ++ '=' :: Url.encodeParam value ++ '&' :: queryChars rest

/-- The URL-encoded form of an object, with blanks as plus signs. -/
def queryString (data : Members) : String := String.ofList (plusBlanks (queryChars data))

def formFields (data : Members) : List (String × String) :=
  data.map fun (key, value) => (key, value.plain)

/-- The body for a call's payload under the given headers.  Only objects take the form types. -/
def ofValue (headers : Members) (value : Json) : Payload :=
  match contentType? headers, value with
  | some type, .object data =>
    if type = urlEncodedType then text (queryString data)
    else if type = jsonType then text (Json.object data).compact
    else if type = formDataType then form (formFields data)
    else raw (.object data)
  | some type, value => if type = jsonType then text value.compact else raw value
  | none, value => raw value

/-- The body of a call; without a payload, or with null, there is none. -/
def ofCall? (headers : Members) (payload : Option Json) : Option Payload :=
  (payload.filter fun value => !value.isNull).map (ofValue headers)

/-- The body's part in a request signature: JSON text, with every form as an empty object. -/
def signatureText : Payload → String
  | text content => (Json.string content).compact
  | form _ => (Json.object []).compact
  | raw value => value.compact

end Payload
end OperationTree
