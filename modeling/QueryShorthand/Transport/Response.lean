import QueryShorthand.Json.Reader
import QueryShorthand.Json.Writer
import QueryShorthand.Text.Utf8

/-! The answer of a server: its text, its JSON value, and the errors that the value reports.
What went wrong in a library is told in the words of that library. -/

namespace QueryShorthand
set_option autoImplicit false

inductive TransportError where
  | network (why : Text)
  | invalidJson (status : Nat) (why : Text)
  deriving DecidableEq

def TransportError.message : TransportError → Text
  | .network why => "request failed: ".toList ++ why
  | .invalidJson status why =>
    "response with status ".toList ++ decimal status ++ " is not valid JSON: ".toList ++ why

structure Response where
  status : Nat
  text : Text
  body : Json.Value

def nestingLimit : Nat := 127

/-- The text of an answer: a byte order mark at its front is not part of it. -/
def bodyText (bytes : List UInt8) : Text :=
  Utf8.decodeLossy <| match bytes with
    | 0xEF :: 0xBB :: 0xBF :: rest => rest
    | _ => bytes

def reportedErrors (body : Json.Value) : Option Json.Value := body.member? "errors".toList

/-- The `message` of an entry, or the whole entry when that is not a string. -/
def entryMessage (entry : Json.Value) : Text :=
  match entry.member? "message".toList with
  | some (.string message) => message
  | _ => entry.text

/-- One message for each entry of the list of errors; anything but a list is one message. -/
def errorMessages (body : Json.Value) : List Text :=
  match reportedErrors body with
  | some (.array entries) => entries.map entryMessage
  | some other => [other.text]
  | none => []

def hasErrors (body : Json.Value) : Bool := (reportedErrors body).isSome

namespace Response

def ofBytes (fault : Text → Text) (status : Nat) (bytes : List UInt8) :
    Except TransportError Response :=
  let text := bodyText bytes
  match Json.read nestingLimit text with
  | some body => .ok ⟨status, text, body⟩
  | none => .error (.invalidJson status (fault text))

end Response

/-- A query answered: with the text of the response, or with the errors it reports. -/
inductive Answer where
  | data (text : Text)
  | errors (messages : List Text)
  deriving DecidableEq

def Response.answer (r : Response) : Answer :=
  if hasErrors r.body then .errors (errorMessages r.body) else .data r.text

end QueryShorthand
