import QueryShorthand.ParseError

/-! The text between parentheses is an alias, `target as name`, or a filter, `key:value`.
The alias form is tried first, so `a as b:c` gives `a` the alias `b:c`. -/

namespace QueryShorthand
set_option autoImplicit false

inductive Label where
  | filter (key value : Text)
  /-- The target is a dotted path below the labelled field. -/
  | aliased (target name : Text)
  deriving DecidableEq

namespace Label

/-- The text behind ` as ` when the text begins with it. Upper and lower case count as
equal, and so does the long s, whose upper case is `S`. -/
def afterSeparator : Text → Option Text
  | ' ' :: a :: s :: ' ' :: rest =>
    if (a = 'a' ∨ a = 'A') ∧ (s = 's' ∨ s = 'S' ∨ s = 'ſ') then some rest else none
  | _ => none

def splitSeparator : Text → Option (Text × Text)
  | [] => none
  | c :: cs =>
    match afterSeparator (c :: cs) with
    | some rest => some ([], rest)
    | none => (splitSeparator cs).map fun (target, name) => (c :: target, name)

def ofAlias (target name : Text) : Except Reason Label :=
  if [] ∈ pieces '.' target then .error .emptyAliasTarget
  else if name = [] then .error .emptyAlias
  else .ok (.aliased target name)

/-- The key ends at the first colon; the value may hold more of them. -/
def ofFilter (body : Text) : Except Reason Label :=
  match body.dropWhile (· != ':') with
  | [] => .error (.malformedFilter body)
  | _ :: value =>
    let key := body.takeWhile (· != ':')
    if key = [] then .error .emptyFilterKey
    else if value = [] then .error .emptyFilterValue
    else .ok (.filter key value)

def ofText (body : Text) : Except Reason Label :=
  match splitSeparator body with
  | some (target, name) => ofAlias target name
  | none => ofFilter body

/-- Nothing is lost at the separator: the text around it and four characters make up the body. -/
theorem splitSeparator_eq_some {body target name : Text}
    (h : splitSeparator body = some (target, name)) :
    ∃ sep, sep.length = 4 ∧ body = target ++ sep ++ name := by
  induction body generalizing target with
  | nil => simp [splitSeparator] at h
  | cons c cs ih =>
    rw [splitSeparator] at h
    split at h
    · rename_i rest hrest
      simp only [Option.some.injEq, Prod.mk.injEq] at h
      obtain ⟨rfl, rfl⟩ := h
      unfold afterSeparator at hrest
      split at hrest
      · rename_i a s r heq
        split at hrest
        · simp only [Option.some.injEq] at hrest
          exact ⟨[' ', a, s, ' '], rfl, by simp [heq, hrest]⟩
        · simp at hrest
      · simp at hrest
    · obtain ⟨⟨t, n⟩, ht, he⟩ := Option.map_eq_some_iff.1 h
      simp only [Prod.mk.injEq] at he
      obtain ⟨rfl, rfl⟩ := he
      obtain ⟨sep, hlen, rfl⟩ := ih ht
      exact ⟨sep, hlen, by simp⟩

theorem ofText_eq_aliased {body target name : Text}
    (h : ofText body = .ok (.aliased target name)) :
    splitSeparator body = some (target, name) ∧ [] ∉ pieces '.' target ∧ name ≠ [] := by
  unfold ofText at h
  split at h
  · rename_i t n hsplit
    unfold ofAlias at h
    split at h
    · cases h
    · rename_i htarget
      split at h
      · cases h
      · rename_i hname
        cases h
        exact ⟨hsplit, htarget, hname⟩
  · unfold ofFilter at h
    split at h
    · cases h
    · dsimp only at h
      split at h
      · cases h
      · split at h <;> cases h

end Label

end QueryShorthand
