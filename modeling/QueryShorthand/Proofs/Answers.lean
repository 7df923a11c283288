import Mathlib.Data.List.Forall2
import QueryShorthand.Proofs.Modes
import QueryShorthand.Proofs.RoundTrip

/-! What becomes of an answer: whether it is refused, taken for reported errors or for data,
and how much of an entry of the errors is left in its message. -/

namespace QueryShorthand
set_option autoImplicit false

/-- The text is JSON for the value, unless there are numbers in the value that are not whole. -/
def Lossless (v : Json.Value) (text : Text) : Prop :=
  v.Whole → Json.read nestingLimit text = some v

/-- An entry of the errors gives its own message, or else a text it can be read back from. -/
structure Reports (entry : Json.Value) (message : Text) : Prop where
  verbatim : ∀ s, entry.Has "message".toList (.string s) → message = s
  otherwise : (∀ s, ¬ entry.Has "message".toList (.string s)) → Lossless entry message

/-- The answer that is due to a text and the value it reads as. -/
structure Answer.Tells (answer : Answer) (text : Text) (value : Json.Value) : Prop where
  errors_iff : (∃ messages, answer = .errors messages) ↔
    ∃ errors, value.Has "errors".toList errors
  data : (∀ errors, ¬ value.Has "errors".toList errors) → answer = .data text
  entries : ∀ entries, value.Has "errors".toList (.array entries) →
    ∃ messages, answer = .errors messages ∧ List.Forall₂ Reports entries messages
  single : ∀ errors, value.Has "errors".toList errors → (∀ entries, errors ≠ .array entries) →
    ∃ message, answer = .errors [message] ∧ Lossless errors message

section
variable {v entry body errors : Json.Value}

theorem lossless_text (h : Json.Fits nestingLimit v) : Lossless v v.text := Json.read_text h

theorem reports_entryMessage (h : Json.Fits nestingLimit entry) :
    Reports entry (entryMessage entry) := by
  unfold entryMessage
  split
  next message hmessage =>
    refine ⟨fun s hs => ?_, fun hother => ?_⟩
    · cases hmessage.symm.trans (h.member?_eq_some_iff.2 hs)
      rfl
    · exact absurd (h.member?_eq_some_iff.1 hmessage) (hother message)
  next hnone =>
    refine ⟨fun s hs => ?_, fun _ => lossless_text h⟩
    exact absurd (h.member?_eq_some_iff.2 hs) (hnone s)

theorem errorMessages_array {entries : List Json.Value}
    (h : reportedErrors body = some (.array entries)) :
    errorMessages body = entries.map entryMessage := by
  rw [errorMessages, h]

theorem errorMessages_other (h : reportedErrors body = some errors)
    (hother : ∀ entries, errors ≠ .array entries) : errorMessages body = [errors.text] := by
  rw [errorMessages, h]
  cases errors with
  | array entries => exact absurd rfl (hother entries)
  | _ => rfl

end

namespace Response

theorem answer_of_errors {r : Response} {errors : Json.Value}
    (h : reportedErrors r.body = some errors) : r.answer = .errors (errorMessages r.body) := by
  rw [answer, hasErrors, h]
  rfl

theorem answer_tells {r : Response} (h : Json.Fits nestingLimit r.body) :
    r.answer.Tells r.text r.body := by
  have hreported : ∀ {errors}, r.body.Has "errors".toList errors →
      reportedErrors r.body = some errors := fun herrors => h.member?_eq_some_iff.2 herrors
  have hdata : (∀ errors, ¬ r.body.Has "errors".toList errors) → r.answer = .data r.text := by
    intro hnone
    exact (answer_data_iff h).2 ⟨hnone, rfl⟩
  constructor
  case errors_iff =>
    constructor
    · rintro ⟨messages, hmessages⟩
      by_contra hnone
      cases hmessages.symm.trans (hdata (not_exists.1 hnone))
    · rintro ⟨errors, herrors⟩
      exact ⟨_, answer_of_errors (hreported herrors)⟩
  case data => exact hdata
  case entries =>
    intro entries herrors
    refine ⟨_, answer_of_errors (hreported herrors), ?_⟩
    rw [errorMessages_array (hreported herrors), List.forall₂_map_right_iff, List.forall₂_same]
    exact fun entry hentry => reports_entryMessage ((h.of_has herrors).of_mem hentry)
  case single =>
    intro errors herrors hother
    refine ⟨errors.text, ?_, lossless_text (h.of_has herrors)⟩
    rw [answer_of_errors (hreported herrors), errorMessages_other (hreported herrors) hother]

end Response

namespace Client

/-- An answer is refused exactly when its text cannot be read. Otherwise what it reads as decides
whether errors or the text are the outcome, whatever the status is, and each entry of the errors
has its message. -/
theorem fetch_tells {lib : Libraries} {uri : Text} {url : lib.Url}
    (husable : lib.address uri = .ok url) (document : Text) (body : List UInt8) :
    (∀ status, (fetch lib ⟨uri⟩ document (.answered status body)).result =
        .error (.invalidJson status (lib.jsonFault (bodyText body))) ↔
      Json.read nestingLimit (bodyText body) = none) ∧
    ∀ value, Json.read nestingLimit (bodyText body) = some value →
      ∃ answer : Answer, answer.Tells (bodyText body) value ∧
        ∀ status, (fetch lib ⟨uri⟩ document (.answered status body)).result = .ok answer := by
  have hresult : ∀ status, (fetch lib ⟨uri⟩ document (.answered status body)).result =
      (Response.ofBytes lib.jsonFault status body).map Response.answer :=
    fun status => fetch_answered husable status body
  simp only [hresult]
  cases hread : Json.read nestingLimit (bodyText body) with
  | none =>
    refine ⟨fun status => iff_of_true ?_ rfl, nofun⟩
    rw [Response.ofBytes_of_read_none hread]
    rfl
  | some value =>
    refine ⟨fun status => iff_of_false ?_ nofun, ?_⟩
    · rw [Response.ofBytes_of_read_some hread]
      nofun
    · rintro _ ⟨⟩
      let response : Response := ⟨0, bodyText body, value⟩
      refine ⟨response.answer, Response.answer_tells (Json.fits_of_read hread), fun status => ?_⟩
      rw [Response.ofBytes_of_read_some hread]
      rfl

/-- The key is given twice, and only one of the entries has a message. -/
def mixedErrors : Text :=
  ("\x7b\"errors\": 1, \"errors\": [\x7b\"message\": \"a\\\"\\u0001\"\x7d, " ++
    "\x7b\"code\": [7, -2]\x7d, null]\x7d").toList

def mixedMessages : List Text :=
  ["a\"\x01".toList, "\x7b\"code\":[7,-2]\x7d".toList, "null".toList]

theorem fetch_tells_mixedErrors :
    ∃ url value, Libraries.plain.address "http://h/g".toList = .ok url ∧
      Json.read nestingLimit mixedErrors = some value ∧
      (Answer.errors mixedMessages).Tells mixedErrors value ∧
      ∀ status, (fetch .plain ⟨"http://h/g".toList⟩ []
        (.answered status (Utf8.encode mixedErrors))).result = .ok (.errors mixedMessages) := by
  have hplain : (⟨"http".toList, ['h'], "/g".toList, none, none⟩ : Uri).Plain := by decide +kernel
  have husable := Libraries.plain_address hplain
  have hbody : bodyText (Utf8.encode mixedErrors) = mixedErrors := by decide +kernel
  have hread : (Json.read nestingLimit mixedErrors).isSome := by decide +kernel
  have hmessages : (fetch .plain ⟨"http://h/g".toList⟩ []
      (.answered 500 (Utf8.encode mixedErrors))).result = .ok (.errors mixedMessages) := by
    decide +kernel
  obtain ⟨value, hvalue⟩ := Option.isSome_iff_exists.1 hread
  obtain ⟨-, htells⟩ := fetch_tells husable [] (Utf8.encode mixedErrors)
  rw [hbody] at htells
  obtain ⟨answer, hanswer, hresult⟩ := htells value hvalue
  cases (hresult 500).symm.trans hmessages
  exact ⟨_, value, husable, hvalue, hanswer, hresult⟩

end Client

end QueryShorthand
