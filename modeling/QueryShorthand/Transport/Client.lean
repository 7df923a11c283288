import QueryShorthand.Transport.Libraries
import QueryShorthand.Transport.Response

/-! Sending a document. What the network does is given from outside, so everything here is a
function of the libraries, the URI, the document and that. -/

namespace QueryShorthand
set_option autoImplicit false

/-- What becomes of a request: it reaches no server, it is received but not answered to the end,
or it is answered. -/
inductive Exchange where
  | unreachable (why : Text)
  | brokenOff (why : Text)
  | answered (status : Nat) (body : List UInt8)
  deriving DecidableEq

/-- The request that reached a server, if one did, and what came of it. -/
structure Sent (α : Type) where
  target : Option Text
  result : Except TransportError α

structure Client where
  uri : Text
  deriving DecidableEq

namespace Client

/-- The request for a document, without the version of the protocol. -/
def request (lib : Libraries) (client : Client) (document : Text) : Except Text Text := do
  return "GET ".toList ++ lib.resource (lib.addPair (← lib.address client.uri) "query".toList document)

def send (lib : Libraries) (client : Client) (document : Text) (exchange : Exchange) :
    Sent Response :=
  match client.request lib document, exchange with
  | .error why, _ | .ok _, .unreachable why => ⟨none, .error (.network why)⟩
  | .ok target, .brokenOff why => ⟨some target, .error (.network why)⟩
  | .ok target, .answered status body =>
    ⟨some target, Response.ofBytes lib.jsonFault status body⟩

def fetch (lib : Libraries) (client : Client) (document : Text) (exchange : Exchange) :
    Sent Answer :=
  let sent := client.send lib document exchange
  ⟨sent.target, sent.result.map Response.answer⟩

end Client

end QueryShorthand
