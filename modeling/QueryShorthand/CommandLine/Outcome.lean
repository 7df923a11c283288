import QueryShorthand.CommandLine.Invocation
import QueryShorthand.Query
import QueryShorthand.Transport.Client

/-! What a run of the command prints and sends, and how it ends. -/

namespace QueryShorthand
set_option autoImplicit false

structure Outcome where
  code : Nat
  stdout : Text
  stderr : Option Text
  target : Option Text
  deriving DecidableEq

def line (s : Text) : Text := s ++ ['\n']

/-- What ends a run before there is a result. -/
inductive RunError where
  | query (e : QueryError)
  | transport (e : TransportError)
  deriving DecidableEq

def RunError.message : RunError → Text
  | .query e => e.message
  | .transport e => "Request error: ".toList ++ e.message

def Outcome.failed (e : RunError) (shown : Text) (target : Option Text) : Outcome :=
  ⟨1, shown, some (line e.message), target⟩

namespace Options

def fieldsOr (o : Options) (stdin : List UInt8) : Except QueryError (List Text) :=
  if o.fields = [] then (readFields stdin).elim (.error .notUtf8) .ok else .ok o.fields

def document (o : Options) (stdin : List UInt8) : Except QueryError Text := do
  buildQuery (← o.fieldsOr stdin) (o.has .commaArgs)

/-- The document is complete before anything is printed, and it is printed before it is
sent. -/
def run (lib : Libraries) (o : Options) (stdin : List UInt8) (exchange : Exchange) : Outcome :=
  match o.document stdin with
  | .error e => .failed (.query e) [] none
  | .ok document =>
    let shown := if o.has .verbose || o.has .dryRun then line document else []
    if o.has .dryRun then ⟨0, shown, none, none⟩
    else
      let sent := Client.fetch lib ⟨o.uri⟩ document exchange
      match sent.result with
      | .ok (.data text) => ⟨0, shown ++ line text, none, sent.target⟩
      | .ok (.errors messages) => ⟨1, shown ++ messages.flatMap line, none, sent.target⟩
      | .error e => .failed (.transport e) shown sent.target

end Options

def versionText : Text := "igqloo 0.1.0".toList

def Invocation.outcome (lib : Libraries) (stdin : List UInt8) (exchange : Exchange) :
    Invocation → Outcome
  | .run options => options.run lib stdin exchange
  | .version => ⟨0, line versionText, none, none⟩
  | .misuse => ⟨2, [], none, none⟩

def Outcome.ofArgs (lib : Libraries) (args : List Text) (stdin : List UInt8)
    (exchange : Exchange) : Outcome :=
  (Invocation.ofArgs args).outcome lib stdin exchange

end QueryShorthand
