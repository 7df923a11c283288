import Mathlib.Data.List.Nodup
import QueryShorthand.Proofs.Failures
import QueryShorthand.Proofs.Faults
import QueryShorthand.Proofs.LabelForms

/-! What can be told from the message of an error. The string and the body of a label are quoted
as they stand, so the message is read from its end: no reason has a colon with a blank behind it,
since a body that is quoted was refused for having no colon, and the digits of the position are
those that stand in front of the last such colon. -/

namespace QueryShorthand
set_option autoImplicit false

/-- A reason of the kind that strings are refused for. -/
def Reason.Colonless : Reason → Prop
  | .malformedFilter body => ':' ∉ body
  | _ => True

/-! Reasons -/

namespace Reason

/-- All reasons that quote nothing. -/
def fixed : List Reason :=
  [.emptySegment, .unclosedParen, .unmatchedParen, .trailingText, .emptyLabel, .emptyFilterKey,
    .emptyFilterValue, .emptyAliasTarget, .emptyAlias]

theorem fixed_or_malformed (r : Reason) : r ∈ fixed ∨ ∃ body, r = .malformedFilter body := by
  cases r <;> simp [fixed]

theorem message_malformed (body : Text) :
    (malformedFilter body).message =
      "malformed filter '".toList ++ body ++ "', expected 'key:value' or 'name as alias'".toList :=
  rfl

theorem head_message_malformed (body : Text) :
    (malformedFilter body).message.head? = some 'm' := by
  rw [message_malformed]
  simp

theorem nodup_messages : (fixed.map message).Nodup := by decide +kernel

theorem head_message_of_fixed : ∀ r ∈ fixed, r.message.head? ≠ some 'm' := by decide +kernel

theorem message_inj {r r' : Reason} (h : r.message = r'.message) : r = r' := by
  rcases r.fixed_or_malformed with hr | ⟨body, rfl⟩
  · rcases r'.fixed_or_malformed with hr' | ⟨body', rfl⟩
    · exact List.inj_on_of_nodup_map nodup_messages hr hr' h
    · exact absurd (h ▸ head_message_malformed body') (head_message_of_fixed r hr)
  · rcases r'.fixed_or_malformed with hr' | ⟨body', rfl⟩
    · exact absurd (h ▸ head_message_malformed body) (head_message_of_fixed r' hr')
    · rw [message_malformed, message_malformed, List.append_left_inj, List.append_right_inj] at h
      rw [h]

end Reason

theorem infix_of_not_mem {s t : Text} (h : ':' ∉ s) (hwithin : ": ".toList <:+: s ++ t) :
    ": ".toList <:+: t := by
  induction s with
  | nil => exact hwithin
  | cons c s ih =>
    obtain ⟨hc, hs⟩ := not_or.1 (mt List.mem_cons.2 h)
    rcases List.infix_cons_iff.1 hwithin with ⟨behind, he⟩ | hrest
    · exact absurd (List.cons.inj he).1 hc
    · exact ih hs hrest

theorem Reason.Colonless.message {r : Reason} (h : r.Colonless) : ¬ ": ".toList <:+: r.message := by
  rcases r.fixed_or_malformed with hr | ⟨body, rfl⟩
  · have hfixed : ∀ r ∈ fixed, ¬ ": ".toList <:+: r.message := by decide +kernel
    exact hfixed r hr
  · intro hwithin
    rw [message_malformed] at hwithin
    have hquoted : ':' ∉ "malformed filter '".toList ++ body := by
      rw [List.mem_append, not_or]
      exact ⟨by decide, h⟩
    exact absurd (infix_of_not_mem hquoted hwithin) (by decide)

/-! Cutting from the end -/

theorem append_colon_inj {a b c d : Text} (hb : ¬ ": ".toList <:+: b) (hd : ¬ ": ".toList <:+: d)
    (h : a ++ (": ".toList ++ b) = c ++ (": ".toList ++ d)) : a = c ∧ b = d := by
  have hcut {x y z : Text} (hz : ¬ ": ".toList <:+: z)
      (he : ": ".toList ++ z = x ++ (": ".toList ++ y)) : x = [] := by
    cases x with
    | nil => rfl
    | cons e x =>
      obtain ⟨rfl, hrest⟩ := List.cons.inj he
      cases x with
      | nil => exact absurd (List.cons.inj hrest).1 (by decide)
      | cons f x =>
        obtain ⟨rfl, rfl⟩ := List.cons.inj hrest
        exact absurd ⟨x, y, List.append_assoc x _ y⟩ hz
  rcases List.append_eq_append_iff.1 h with ⟨x, rfl, he⟩ | ⟨x, rfl, he⟩
  · obtain rfl := hcut hb he
    exact ⟨(List.append_nil a).symm, List.append_cancel_left he⟩
  · obtain rfl := hcut hd he
    exact ⟨List.append_nil c, (List.append_cancel_left he).symm⟩

theorem append_decimal_inj {a c : Text} {m n : Nat} (h : a ++ ' ' :: decimal m = c ++ ' ' :: decimal n) :
    a = c ∧ m = n := by
  have hdigits (n : Nat) : ∀ d ∈ (decimal n).reverse, d.isDigit := by
    intro d hd
    exact isDigit_of_mem_decimal (List.mem_reverse.1 hd)
  have hstops (s : Text) : Stops Char.isDigit (' ' :: s) := by simp
  have hreverse := congrArg List.reverse h
  simp only [List.reverse_append, List.reverse_cons, List.append_assoc, List.singleton_append]
    at hreverse
  obtain ⟨hd, hs⟩ := append_inj_of_stops (hdigits m) (hstops _) (hdigits n) (hstops _) hreverse
  exact ⟨List.reverse_inj.1 (List.cons.inj hs).2, decimal_inj (List.reverse_inj.1 hd)⟩

theorem quoted_inj {opening closing s s' r r' : Text} {m n : Nat} (hr : ¬ ": ".toList <:+: r)
    (hr' : ¬ ": ".toList <:+: r')
    (h : opening ++ s ++ (closing ++ [' ']) ++ decimal m ++ ": ".toList ++ r =
      opening ++ s' ++ (closing ++ [' ']) ++ decimal n ++ ": ".toList ++ r') :
    s = s' ∧ m = n ∧ r = r' := by
  rw [List.append_assoc _ ": ".toList, List.append_assoc _ ": ".toList] at h
  obtain ⟨hfront, hreason⟩ := append_colon_inj hr hr' h
  simp only [← List.append_assoc, List.append_assoc _ [' '], List.singleton_append] at hfront
  obtain ⟨hspec, hposition⟩ := append_decimal_inj hfront
  exact ⟨List.append_cancel_left (List.append_cancel_right hspec), hposition, hreason⟩

theorem ParseError.message_eq (e : ParseError) :
    e.message = "cannot parse '".toList ++ e.spec ++ ("' at position".toList ++ [' ']) ++
      decimal e.position ++ ": ".toList ++ e.reason.message := by
  have hposition : "' at position".toList ++ [' '] = "' at position ".toList := by decide +kernel
  rw [hposition]
  rfl

theorem ParseError.message_inj {e e' : ParseError} (he : e.reason.Colonless)
    (he' : e'.reason.Colonless) (h : e.message = e'.message) : e = e' := by
  rw [message_eq, message_eq] at h
  obtain ⟨hspec, hplace, hreason⟩ := quoted_inj he.message he'.message h
  obtain ⟨⟨position, reason⟩, spec⟩ := e
  obtain ⟨⟨position', reason'⟩, spec'⟩ := e'
  cases hspec
  cases hplace
  cases Reason.message_inj hreason
  rfl

/-! What strings are refused for -/

theorem FaultAt.colonless {s : Text} {position : Nat} {reason : Reason}
    (h : FaultAt s position reason) : reason.Colonless := by
  obtain ⟨before, rest, -, -, hbetween⟩ := h
  cases hbetween <;> trivial

theorem Label.colonless_of_error {body : Text} {reason : Reason} (h : ofText body = .error reason) :
    reason.Colonless := by
  have hrefused : ∀ label, ofText body ≠ .ok label := by
    intro label hlabel
    cases h.symm.trans hlabel
  rcases leftmostCut_or_none body with ⟨target, sep, name, hcut⟩ | hnone
  · cases h.symm.trans (hcut.refused hrefused)
    split <;> trivial
  · rw [ofText_of_no_separator hnone] at h hrefused
    cases h.symm.trans (ofFilter_refused hrefused)
    split
    · rename_i hcolon
      exact hcolon
    · split <;> trivial

theorem Tree.colonless_of_parseField {t : Tree} {spec : Text} {e : ParseError}
    (h : t.parseField spec = .error e) : e.spec = spec ∧ e.reason.Colonless := by
  rw [parseField_eq_error_iff] at h
  cases htok : tokenize spec with
  | error e' =>
    cases (Plan.ofSpec_of_tokenize_error htok).symm.trans h
    obtain ⟨hspec, hfault⟩ := tokenize_eq_error_iff.1 htok
    exact ⟨hspec, hfault.colonless⟩
  | ok bs =>
    obtain ⟨hspec, _, _, _, _, _, hlabel, -⟩ := (Plan.ofSpec_eq_error_iff htok).1 h
    exact ⟨hspec, Label.colonless_of_error hlabel⟩

/-- Two strings that are refused, by whatever trees, are refused with the same message only when
they are the same string, and then for the same reason at the same position. -/
theorem message_determines_error {t t' : Tree} {spec spec' : Text} {e e' : ParseError}
    (h : t.parseField spec = .error e) (h' : t'.parseField spec' = .error e') :
    e.message = e'.message ↔ spec = spec' ∧ e = e' := by
  obtain ⟨hspec, hcolonless⟩ := Tree.colonless_of_parseField h
  obtain ⟨hspec', hcolonless'⟩ := Tree.colonless_of_parseField h'
  constructor
  · intro hmessage
    have he := ParseError.message_inj hcolonless hcolonless' hmessage
    exact ⟨hspec.symm.trans ((congrArg ParseError.spec he).trans hspec'), he⟩
  · intro hsame
    rw [hsame.2]

/-- The second string goes on like the message about the first one. -/
def refused : Text := "a(b)".toList

def imitation : Text := "a(b)' at position 1: malformed filter 'b".toList

theorem message_determines_error_imitation :
    ∃ e e', Tree.empty.parseField refused = .error e ∧
      Tree.empty.parseField imitation = .error e' ∧
      "cannot parse 'a(b)' at position 1: malformed filter 'b".toList <+: e.message ∧
      "cannot parse 'a(b)' at position 1: malformed filter 'b".toList <+: e'.message ∧
      e.message ≠ e'.message := by
  have h : Tree.empty.parseField refused =
      .error ⟨⟨1, .malformedFilter "b".toList⟩, refused⟩ := by
    decide +kernel
  have h' : Tree.empty.parseField imitation = .error ⟨⟨4, .trailingText⟩, imitation⟩ := by
    decide +kernel
  refine ⟨_, _, h, h', by decide +kernel, by decide +kernel, ?_⟩
  refine mt (message_determines_error h h').1 fun hsame => ?_
  exact absurd hsame.1 (by decide +kernel)

end QueryShorthand
