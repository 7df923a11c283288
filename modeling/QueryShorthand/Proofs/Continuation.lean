import QueryShorthand.Proofs.Faults

/-! Going on with a string that was rejected. A fault that does not come from the end of the
string stays where it is, whatever is written behind it; one that does can be made good. -/

namespace QueryShorthand
set_option autoImplicit false

/-- Where the name should begin that an empty segment lacks: the position of that fault is the
start of the string or that of a connector. -/
def nameStart (position : Nat) : Nat := if position = 0 then 0 else position + 1

/-- The fault is one that stands in the string. -/
inductive Final (s : Text) : Fault → Prop where
  | unmatchedParen {p : Nat} : Final s ⟨p, .unmatchedParen⟩
  | trailingText {p : Nat} : Final s ⟨p, .trailingText⟩
  | emptyLabel {p : Nat} : Final s ⟨p, .emptyLabel⟩
  | emptySegment {p : Nat} {c : Char} (h : s[nameStart p]? = some c)
      (hc : c = '.' ∨ c = ',' ∨ c = '(') : Final s ⟨p, .emptySegment⟩

/-- The fault is that the string ends. -/
inductive Pending (s : Text) : Fault → Prop where
  | unclosedParen {p : Nat} : Pending s ⟨p, .unclosedParen⟩
  | emptySegment {p : Nat} (h : s[nameStart p]? = none) : Pending s ⟨p, .emptySegment⟩

theorem Chunked.ne_nil {s : Text} (h : Chunked s) : s ≠ [] := by
  cases h with
  | name hs => exact hs.1
  | field => simp
  | label => simp

theorem Accepted.ne_nil {s : Text} (h : Accepted s) : s ≠ [] := (accepted_iff_chunked.1 h).ne_nil

theorem getElem?_nameStart {before : Text} (h : before ≠ []) (c : Char) (rest : Text) :
    (before ++ c :: rest)[nameStart before.length]? = rest.head? := by
  have hlength : before.length ≠ 0 := fun he => h (List.length_eq_zero_iff.1 he)
  rw [nameStart, if_neg hlength, List.getElem?_append_right (Nat.le_add_right _ 1),
    Nat.add_sub_cancel_left, List.getElem?_cons_succ, List.head?_eq_getElem?]

theorem Separated.append {s : Text} (h : Separated s) (hne : s.head? ≠ none) (more : Text) :
    Separated (s ++ more) := by
  cases s with
  | nil => exact absurd rfl hne
  | cons c s => exact separated_cons_iff.2 (separated_cons_iff.1 h)

section
variable {before rest : Text} {reason : Reason}

theorem FaultBetween.final_or_pending (h : FaultBetween before rest reason) :
    Final (before ++ rest) ⟨before.length, reason⟩ ∨
      Pending (before ++ rest) ⟨before.length, reason⟩ := by
  have hsegment {rest' : Text} (hsep : Separated rest')
      (hget : (before ++ rest)[nameStart before.length]? = rest'.head?) :
      Final (before ++ rest) ⟨before.length, .emptySegment⟩ ∨
        Pending (before ++ rest) ⟨before.length, .emptySegment⟩ := by
    cases hhead : rest'.head? with
    | none => exact .inr (.emptySegment (hget.trans hhead))
    | some c => exact .inl (.emptySegment (hget.trans hhead) (hsep c hhead))
  cases h with
  | noName hsep => exact hsegment hsep List.head?_eq_getElem?.symm
  | noNextName h hc hsep => exact hsegment hsep (getElem?_nameStart h.ne_nil _ _)
  | unclosed => exact .inr .unclosedParen
  | emptyLabel => exact .inl .emptyLabel
  | trailing => exact .inl .trailingText
  | unmatched => exact .inl .unmatchedParen
  | unmatchedInName => exact .inl .unmatchedParen

theorem FaultBetween.append (h : FaultBetween before rest reason)
    (hfinal : Final (before ++ rest) ⟨before.length, reason⟩) (more : Text) :
    FaultBetween before (rest ++ more) reason := by
  cases h with
  | noName hsep =>
    cases hfinal with
    | emptySegment hget _ =>
      refine .noName (hsep.append (fun hnone => ?_) more)
      have hhead : rest.head? = some _ := List.head?_eq_getElem?.trans hget
      rw [hhead] at hnone
      cases hnone
  | noNextName h hc hsep =>
    cases hfinal with
    | emptySegment hget _ =>
      refine .noNextName h hc (hsep.append (fun hnone => ?_) more)
      rw [getElem?_nameStart h.ne_nil, hnone] at hget
      cases hget
  | unclosed => cases hfinal
  | emptyLabel h => exact .emptyLabel h
  | trailing h hc => exact .trailing h hc
  | unmatched h => exact .unmatched h
  | unmatchedInName hc h => exact .unmatchedInName hc h

/-- A name or a label that the end cuts off goes on with a letter; a label is then closed. -/
theorem FaultBetween.exists_accepted (h : FaultBetween before rest reason)
    (hpending : Pending (before ++ rest) ⟨before.length, reason⟩) :
    ∃ more, Accepted (before ++ rest ++ more) := by
  have hname : IsName ['a'] := isName_concat (s := []) (by simp) rfl
  cases h with
  | noName =>
    cases hpending with
    | emptySegment hget =>
      have hnil : rest = [] := List.head?_eq_none_iff.1 (List.head?_eq_getElem?.trans hget)
      subst hnil
      exact ⟨['a'], accepted_iff_chunked.2 (.name hname)⟩
  | noNextName h hc =>
    cases hpending with
    | emptySegment hget =>
      rw [getElem?_nameStart h.ne_nil, List.head?_eq_none_iff] at hget
      subst hget
      refine ⟨['a'], accepted_iff_chunked.2 ?_⟩
      rw [List.append_assoc]
      exact .field (accepted_iff_chunked.1 h) hc hname
  | @unclosed before rest h hrest =>
    refine ⟨"a)".toList, accepted_iff_chunked.2 ?_⟩
    have hbody : ')' ∉ rest ++ ['a'] := by simp [hrest]
    have hlabel := Chunked.label (accepted_iff_chunked.1 h) (by simp) hbody
    have happend : before ++ '(' :: rest ++ "a)".toList =
        before ++ '(' :: (rest ++ ['a'] ++ [')']) := by simp
    exact happend ▸ hlabel
  | emptyLabel => cases hpending
  | trailing => cases hpending
  | unmatched => cases hpending
  | unmatchedInName => cases hpending

end

/-- A rejected string has a fault that stands in it, and then every longer string is rejected
with the same fault at the same position, or one that its end is to blame for, and then some
longer string is accepted. -/
theorem tokenize_append_of_error {spec : Text} {e : ParseError} (h : tokenize spec = .error e) :
    (Final spec e.toFault ∨ Pending spec e.toFault) ∧
      (Final spec e.toFault →
        ∀ more, tokenize (spec ++ more) = .error (e.toFault.inside (spec ++ more))) ∧
      (Pending spec e.toFault → ∃ more, Accepted (spec ++ more)) := by
  obtain ⟨-, before, rest, rfl, hposition, hfault⟩ := tokenize_eq_error_iff.1 h
  have hbetween : e.toFault = ⟨before.length, e.reason⟩ := by rw [hposition]
  rw [hbetween]
  refine ⟨hfault.final_or_pending, fun hfinal more => ?_, hfault.exists_accepted⟩
  refine tokenize_eq_error_iff.2 ⟨rfl, before, rest ++ more, ?_, rfl, hfault.append hfinal more⟩
  exact (List.append_assoc before rest more).symm

/-- After `a.` a comma is wrong for good, and the end of the string is not. -/
theorem tokenize_append_of_error_missingName :
    (∀ more, tokenize ("a.,".toList ++ more) =
        .error ⟨⟨1, .emptySegment⟩, "a.,".toList ++ more⟩) ∧
      tokenize "a(k:1).".toList = .error ⟨⟨6, .emptySegment⟩, "a(k:1).".toList⟩ ∧
      ∃ more, Accepted ("a(k:1).".toList ++ more) := by
  have hcomma : tokenize "a.,".toList = .error ⟨⟨1, .emptySegment⟩, "a.,".toList⟩ := by
    decide +kernel
  have hend : tokenize "a(k:1).".toList = .error ⟨⟨6, .emptySegment⟩, "a(k:1).".toList⟩ := by
    decide +kernel
  refine ⟨(tokenize_append_of_error hcomma).2.1 ?_, hend, (tokenize_append_of_error hend).2.2 ?_⟩
  · exact .emptySegment (c := ',') rfl (.inr (.inl rfl))
  · exact .emptySegment rfl

end QueryShorthand
