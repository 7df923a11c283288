import Mathlib.Data.List.Infix
import QueryShorthand.Label
import QueryShorthand.Text.Spans

/-! The two forms of a label. Separators may overlap, and the leftmost one decides: what stands
before it is a path and what stands behind it an alias, whatever else is in there. Only a text
without a separator is cut at its first colon. A text of neither form is refused, and the first
part that is not as it should be says why. -/

namespace QueryShorthand.Label
set_option autoImplicit false

/-- ` as ` in upper or lower case; the long s is an s. -/
def IsSeparator (sep : Text) : Prop :=
  ∃ a s, sep = [' ', a, s, ' '] ∧ (a = 'a' ∨ a = 'A') ∧ (s = 's' ∨ s = 'S' ∨ s = 'ſ')

theorem afterSeparator_eq_some_iff {body rest : Text} :
    afterSeparator body = some rest ↔ ∃ sep, IsSeparator sep ∧ body = sep ++ rest := by
  constructor
  · intro h
    unfold afterSeparator at h
    split at h
    · rename_i a s rest'
      split at h
      · rename_i hcase
        exact ⟨[' ', a, s, ' '], ⟨a, s, rfl, hcase⟩, by rw [← Option.some.inj h]; rfl⟩
      · cases h
    · cases h
  · rintro ⟨_, ⟨a, s, rfl, hcase⟩, rfl⟩
    exact if_pos hcase

theorem afterSeparator_eq_none_iff {body : Text} :
    afterSeparator body = none ↔ ∀ sep, IsSeparator sep → ¬ sep <+: body := by
  rw [Option.eq_none_iff_forall_ne_some]
  constructor
  · rintro h sep hsep ⟨rest, hrest⟩
    exact h rest (afterSeparator_eq_some_iff.2 ⟨sep, hsep, hrest.symm⟩)
  · intro h rest hrest
    obtain ⟨sep, hsep, hbody⟩ := afterSeparator_eq_some_iff.1 hrest
    exact h sep hsep ⟨rest, hbody.symm⟩

theorem splitSeparator_eq_none_iff {body : Text} :
    splitSeparator body = none ↔ ∀ sep, IsSeparator sep → ¬ sep <:+: body := by
  induction body with
  | nil =>
    simp only [splitSeparator, List.infix_nil, true_iff]
    rintro _ ⟨a, s, rfl, -⟩ hnil
    cases hnil
  | cons c cs ih =>
    simp only [List.infix_cons_iff, not_or, forall_and, ← afterSeparator_eq_none_iff, ← ih]
    rw [splitSeparator]
    cases afterSeparator (c :: cs) <;> simp

/-- A separator with the texts on both sides of it. None begins further left. -/
structure LeftmostCut (body target sep name : Text) : Prop where
  separator : IsSeparator sep
  written : body = target ++ sep ++ name
  leftmost : ∀ t s n, IsSeparator s → body = t ++ s ++ n → target.length ≤ t.length

theorem IsSeparator.length_eq {sep : Text} (h : IsSeparator sep) : sep.length = 4 := by
  obtain ⟨a, s, rfl, -⟩ := h
  rfl

theorem LeftmostCut.unique {body t s n t' s' n' : Text} (h : LeftmostCut body t s n)
    (h' : LeftmostCut body t' s' n') : t = t' ∧ s = s' ∧ n = n' := by
  have hlength : t.length = t'.length := by
    apply Nat.le_antisymm
    · exact h.leftmost _ _ _ h'.separator h'.written
    · exact h'.leftmost _ _ _ h.separator h.written
  have heq := h.written.symm.trans h'.written
  rw [List.append_assoc, List.append_assoc] at heq
  obtain ⟨ht, hbehind⟩ := List.append_inj heq hlength
  obtain ⟨hs, hn⟩ := List.append_inj hbehind (h.separator.length_eq.trans h'.separator.length_eq.symm)
  exact ⟨ht, hs, hn⟩

theorem leftmostCut_nil_iff {body sep name : Text} :
    LeftmostCut body [] sep name ↔ IsSeparator sep ∧ body = sep ++ name := by
  constructor
  · intro h
    exact ⟨h.separator, h.written⟩
  · rintro ⟨hsep, hbody⟩
    exact ⟨hsep, hbody, fun _ _ _ _ _ => Nat.zero_le _⟩

/-- Where no separator opens the body, all of them are found behind its first character. -/
theorem leftmostCut_cons_iff {c : Char} {cs target sep name : Text}
    (hopen : ∀ s, IsSeparator s → ¬ s <+: c :: cs) :
    LeftmostCut (c :: cs) target sep name ↔ ∃ t, target = c :: t ∧ LeftmostCut cs t sep name := by
  have hbehind {t s n : Text} (hs : IsSeparator s) (hbody : c :: cs = t ++ s ++ n) :
      ∃ t', t = c :: t' ∧ cs = t' ++ s ++ n := by
    cases t with
    | nil => exact absurd ⟨n, hbody.symm⟩ (hopen s hs)
    | cons d t' =>
      obtain ⟨rfl, hcs⟩ := List.cons.inj hbody
      exact ⟨t', rfl, hcs⟩
  constructor
  · intro h
    obtain ⟨t, rfl, hcs⟩ := hbehind h.separator h.written
    refine ⟨t, rfl, h.separator, hcs, fun t' s n hs he => ?_⟩
    have hle := h.leftmost (c :: t') s n hs (by rw [he]; rfl)
    exact Nat.le_of_succ_le_succ hle
  · rintro ⟨t, rfl, h⟩
    refine ⟨h.separator, by rw [h.written]; rfl, fun t' s n hs he => ?_⟩
    obtain ⟨t', rfl, hcs⟩ := hbehind hs he
    exact Nat.succ_le_succ (h.leftmost t' s n hs hcs)

theorem splitSeparator_eq_some_iff {body target name : Text} :
    splitSeparator body = some (target, name) ↔ ∃ sep, LeftmostCut body target sep name := by
  induction body generalizing target with
  | nil =>
    constructor
    · intro h
      cases h
    · rintro ⟨sep, h⟩
      have hlength := congrArg List.length h.written
      have hsep := h.separator.length_eq
      simp only [List.length_append, List.length_nil] at hlength
      omega
  | cons c cs ih =>
    rw [splitSeparator]
    cases hopen : afterSeparator (c :: cs) with
    | some rest =>
      obtain ⟨s, hs, hbody⟩ := afterSeparator_eq_some_iff.1 hopen
      have hcut := leftmostCut_nil_iff.2 ⟨hs, hbody⟩
      simp only [Option.some.injEq, Prod.mk.injEq]
      constructor
      · rintro ⟨rfl, rfl⟩
        exact ⟨s, hcut⟩
      · rintro ⟨sep, h⟩
        obtain ⟨ht, -, hn⟩ := hcut.unique h
        exact ⟨ht, hn⟩
    | none =>
      simp only [leftmostCut_cons_iff (afterSeparator_eq_none_iff.1 hopen), Option.map_eq_some_iff,
        Prod.exists, Prod.mk.injEq]
      constructor
      · rintro ⟨t, n, hsplit, rfl, rfl⟩
        obtain ⟨sep, h⟩ := ih.1 hsplit
        exact ⟨sep, t, rfl, h⟩
      · rintro ⟨sep, t, rfl, h⟩
        exact ⟨t, name, ih.2 ⟨sep, h⟩, rfl, rfl⟩

/-- A separator that begins before a space of the text ends there or before: neither of its two
letters is that space. -/
theorem IsSeparator.prefix_concat_space {s n u v : Text} (hs : IsSeparator s) (hu : u ≠ [])
    (h : s ++ n = u ++ ' ' :: v) : s <+: u ++ [' '] := by
  have hlength : 3 ≤ u.length := by
    obtain ⟨a, z, rfl, ha, hz⟩ := hs
    cases u with
    | nil => exact absurd rfl hu
    | cons x u =>
      cases u with
      | nil => simp_all
      | cons y u =>
        cases u with
        | nil => simp_all
        | cons w u => simp
  have hsep : s <+: u ++ ' ' :: v := ⟨n, h⟩
  have hspace : u ++ [' '] <+: u ++ ' ' :: v := ⟨v, by simp⟩
  apply List.prefix_of_prefix_length_le hsep hspace
  rw [hs.length_eq, List.length_append, List.length_singleton]
  exact Nat.succ_le_succ hlength

/-- That a separator is the leftmost can be told from the text before it and its own first
space. -/
theorem leftmostCut_iff {body target sep name : Text} :
    LeftmostCut body target sep name ↔
      IsSeparator sep ∧ body = target ++ sep ++ name ∧
        ∀ s, IsSeparator s → ¬ s <:+: target ++ [' '] := by
  constructor
  · intro h
    refine ⟨h.separator, h.written, ?_⟩
    rintro s hs ⟨t, n, heq⟩
    obtain ⟨a, z, rfl, -⟩ := h.separator
    have hbody : body = t ++ s ++ (n ++ [a, z, ' '] ++ name) := by
      rw [h.written, show target ++ [' ', a, z, ' '] = target ++ [' '] ++ [a, z, ' '] by simp, ← heq]
      simp
    have hle := h.leftmost t s _ hs hbody
    have hlength := congrArg List.length heq
    simp only [List.length_append, hs.length_eq, List.length_singleton] at hlength
    omega
  · rintro ⟨hsep, hbody, hfirst⟩
    refine ⟨hsep, hbody, fun t s n hs he => ?_⟩
    by_contra hlt
    have htarget : target <+: body := ⟨sep ++ name, by rw [hbody, List.append_assoc]⟩
    have ht : t <+: body := ⟨s ++ n, by rw [he, List.append_assoc]⟩
    obtain ⟨u, rfl⟩ := List.prefix_of_prefix_length_le ht htarget (Nat.le_of_not_le hlt)
    have hu : u ≠ [] := by
      rintro rfl
      exact hlt (by simp)
    obtain ⟨a, z, rfl, -⟩ := hsep
    have hbehind : s ++ n = u ++ ' ' :: ([a, z, ' '] ++ name) := by
      have heq := he.symm.trans hbody
      rw [List.append_assoc, List.append_assoc, List.append_assoc] at heq
      exact List.append_cancel_left heq
    apply hfirst s hs
    rw [List.append_assoc]
    exact (hs.prefix_concat_space hu hbehind).isInfix.trans (List.suffix_append t _).isInfix

theorem leftmostCut_or_none (body : Text) :
    (∃ target sep name, LeftmostCut body target sep name) ∨
      ∀ sep, IsSeparator sep → ¬ sep <:+: body := by
  cases hsplit : splitSeparator body with
  | some parts =>
    obtain ⟨sep, h⟩ := splitSeparator_eq_some_iff.1 hsplit
    exact .inl ⟨parts.1, sep, parts.2, h⟩
  | none => exact .inr (splitSeparator_eq_none_iff.1 hsplit)

theorem LeftmostCut.ofText_eq {body target sep name : Text} (h : LeftmostCut body target sep name) :
    ofText body = ofAlias target name := by
  rw [ofText, splitSeparator_eq_some_iff.2 ⟨sep, h⟩]

theorem ofText_of_no_separator {body : Text} (h : ∀ sep, IsSeparator sep → ¬ sep <:+: body) :
    ofText body = ofFilter body := by
  rw [ofText, splitSeparator_eq_none_iff.2 h]

/-! The forms -/

/-- A body that gives an alias. With the space that follows it the target holds no separator. -/
structure AliasForm (body target sep name : Text) : Prop where
  separator : IsSeparator sep
  written : body = target ++ sep ++ name
  first : ∀ s, IsSeparator s → ¬ s <:+: target ++ [' ']
  target : [] ∉ pieces '.' target
  name : name ≠ []

structure FilterForm (body key value : Text) : Prop where
  written : body = key ++ ':' :: value
  colon : ':' ∉ key
  key : key ≠ []
  value : value ≠ []
  no_separator : ∀ s, IsSeparator s → ¬ s <:+: body

theorem AliasForm.leftmostCut {body target sep name : Text} (h : AliasForm body target sep name) :
    LeftmostCut body target sep name :=
  leftmostCut_iff.2 ⟨h.separator, h.written, h.first⟩

theorem ofText_eq_aliased_iff {body target name : Text} :
    ofText body = .ok (.aliased target name) ↔ ∃ sep, AliasForm body target sep name := by
  constructor
  · intro h
    obtain ⟨hsplit, htarget, hname⟩ := ofText_eq_aliased h
    obtain ⟨sep, hcut⟩ := splitSeparator_eq_some_iff.1 hsplit
    obtain ⟨hsep, hbody, hfirst⟩ := leftmostCut_iff.1 hcut
    exact ⟨sep, hsep, hbody, hfirst, htarget, hname⟩
  · rintro ⟨sep, h⟩
    rw [h.leftmostCut.ofText_eq, ofAlias, if_neg h.target, if_neg h.name]

theorem ofFilter_of_not_mem {body : Text} (h : ':' ∉ body) :
    ofFilter body = .error (.malformedFilter body) := by
  rw [ofFilter, List.dropWhile_eq_nil_iff.2 (forall_bne_of_not_mem h)]

theorem ofFilter_of_colon {key value : Text} (hcolon : ':' ∉ key) :
    ofFilter (key ++ ':' :: value) =
      if key = [] then .error .emptyFilterKey
      else if value = [] then .error .emptyFilterValue
      else .ok (.filter key value) := by
  have hchars := forall_bne_of_not_mem hcolon
  have hstop : Stops (· != ':') (':' :: value) := by simp
  rw [ofFilter, dropWhile_append_of_stops hchars hstop, takeWhile_append_of_stops hchars hstop]

theorem ofFilter_eq_ok_iff {body : Text} {label : Label} :
    ofFilter body = .ok label ↔
      ∃ key value, label = .filter key value ∧ body = key ++ ':' :: value ∧
        ':' ∉ key ∧ key ≠ [] ∧ value ≠ [] := by
  constructor
  · intro h
    by_cases hmem : ':' ∈ body
    · obtain ⟨key, value, rfl, hcolon⟩ := List.eq_append_cons_of_mem hmem
      rw [ofFilter_of_colon hcolon] at h
      split at h
      · cases h
      · rename_i hkey
        split at h
        · cases h
        · rename_i hvalue
          exact ⟨key, value, (Except.ok.inj h).symm, rfl, hcolon, hkey, hvalue⟩
    · rw [ofFilter_of_not_mem hmem] at h
      cases h
  · rintro ⟨key, value, rfl, rfl, hcolon, hkey, hvalue⟩
    rw [ofFilter_of_colon hcolon, if_neg hkey, if_neg hvalue]

theorem ofAlias_ne_filter (target name key value : Text) :
    ofAlias target name ≠ .ok (.filter key value) := by
  unfold ofAlias
  split
  · simp
  · split <;> simp

theorem ofText_eq_filter_iff {body key value : Text} :
    ofText body = .ok (.filter key value) ↔ FilterForm body key value := by
  constructor
  · intro h
    rcases leftmostCut_or_none body with ⟨target, sep, name, hcut⟩ | hnone
    · rw [hcut.ofText_eq] at h
      exact absurd h (ofAlias_ne_filter target name key value)
    · rw [ofText_of_no_separator hnone] at h
      obtain ⟨_, _, heq, hbody, hcolon, hkey, hvalue⟩ := ofFilter_eq_ok_iff.1 h
      cases heq
      exact ⟨hbody, hcolon, hkey, hvalue, hnone⟩
  · intro h
    rw [ofText_of_no_separator h.no_separator]
    exact ofFilter_eq_ok_iff.2 ⟨key, value, rfl, h.written, h.colon, h.key, h.value⟩

/-! Texts that are refused -/

theorem LeftmostCut.refused {body target sep name : Text} (h : LeftmostCut body target sep name)
    (hrefused : ∀ label, ofText body ≠ .ok label) :
    ofText body = .error (if [] ∈ pieces '.' target then .emptyAliasTarget else .emptyAlias) := by
  rw [h.ofText_eq, ofAlias] at hrefused ⊢
  split
  · rfl
  · rename_i htarget
    rw [if_neg htarget] at hrefused
    split
    · rfl
    · rename_i hname
      rw [if_neg hname] at hrefused
      exact absurd rfl (hrefused _)

theorem ofFilter_refused {body : Text} (hrefused : ∀ label, ofFilter body ≠ .ok label) :
    ofFilter body = .error (if ':' ∉ body then .malformedFilter body
      else if body.head? = some ':' then .emptyFilterKey else .emptyFilterValue) := by
  by_cases hmem : ':' ∈ body
  · obtain ⟨key, value, rfl, hcolon⟩ := List.eq_append_cons_of_mem hmem
    rw [if_neg (not_not_intro hmem)]
    rw [ofFilter_of_colon hcolon] at hrefused ⊢
    cases key with
    | nil => rfl
    | cons c key =>
      have hhead : (c :: key ++ ':' :: value).head? ≠ some ':' := by
        intro he
        cases he
        exact hcolon List.mem_cons_self
      rw [if_neg (List.cons_ne_nil c key)] at hrefused ⊢
      rw [if_neg hhead]
      split
      · rfl
      · rename_i hvalue
        rw [if_neg hvalue] at hrefused
        exact absurd rfl (hrefused _)
  · rw [ofFilter_of_not_mem hmem, if_pos hmem]

/-- A text is read as an alias or a filter exactly when it has that form; it has one form at
most, and only in one way. Every other text is refused: as an alias when it holds a separator,
as a filter when it holds none, and for the first part in it that is missing. -/
theorem ofText_forms (body : Text) :
    (∀ target name, ofText body = .ok (.aliased target name) ↔ ∃ sep, AliasForm body target sep name) ∧
    (∀ key value, ofText body = .ok (.filter key value) ↔ FilterForm body key value) ∧
    (∀ t s n t' s' n', AliasForm body t s n → AliasForm body t' s' n' → t = t' ∧ s = s' ∧ n = n') ∧
    (∀ k v k' v', FilterForm body k v → FilterForm body k' v' → k = k' ∧ v = v') ∧
    (∀ t s n k v, AliasForm body t s n → ¬ FilterForm body k v) ∧
    ((∀ label, ofText body ≠ .ok label) →
      (∃ target sep name, LeftmostCut body target sep name ∧
        ofText body =
          .error (if [] ∈ pieces '.' target then .emptyAliasTarget else .emptyAlias)) ∨
      (∀ sep, IsSeparator sep → ¬ sep <:+: body) ∧
        ofText body = .error (if ':' ∉ body then .malformedFilter body
          else if body.head? = some ':' then .emptyFilterKey else .emptyFilterValue)) := by
  refine ⟨fun target name => ofText_eq_aliased_iff, fun key value => ofText_eq_filter_iff,
    fun t s n t' s' n' h h' => h.leftmostCut.unique h'.leftmostCut, fun k v k' v' h h' => ?_,
    fun t s n k v h h' => ?_, fun hrefused => ?_⟩
  · have heq := (ofText_eq_filter_iff.2 h).symm.trans (ofText_eq_filter_iff.2 h')
    cases heq
    exact ⟨rfl, rfl⟩
  · have hinfix : s <:+: body := ⟨t, n, h.written.symm⟩
    exact h'.no_separator s h.separator hinfix
  · rcases leftmostCut_or_none body with ⟨target, sep, name, hcut⟩ | hnone
    · exact .inl ⟨target, sep, name, hcut, hcut.refused hrefused⟩
    · rw [ofText_of_no_separator hnone] at hrefused ⊢
      exact .inr ⟨hnone, ofFilter_refused hrefused⟩

/-- Two separators share a space. -/
def overlapping : Text := "x as aſ y:z".toList

/-- Neither the target nor the alias is as it should be. -/
def twiceWrong : Text := "b.. AS ".toList

theorem ofText_forms_overlapping :
    (∃ sep, AliasForm overlapping "x".toList sep "aſ y:z".toList) ∧
      (∀ key value, ¬ FilterForm overlapping key value) ∧
      (∀ label, ofText twiceWrong ≠ .ok label) ∧ ofText twiceWrong = .error .emptyAliasTarget ∧
      ∃ target sep name, LeftmostCut twiceWrong target sep name ∧ ofText twiceWrong =
        .error (if [] ∈ pieces '.' target then .emptyAliasTarget else .emptyAlias) := by
  obtain ⟨halias, -, -, -, hapart, -⟩ := ofText_forms overlapping
  obtain ⟨sep, hform⟩ := (halias _ _).1 (show ofText overlapping = .ok (.aliased _ _) from rfl)
  have herror : ofText twiceWrong = .error .emptyAliasTarget := rfl
  have hrefused : ∀ label, ofText twiceWrong ≠ .ok label := by
    intro label h
    cases herror.symm.trans h
  refine ⟨⟨sep, hform⟩, fun key value => hapart _ _ _ key value hform, hrefused, herror, ?_⟩
  rcases (ofText_forms twiceWrong).2.2.2.2.2 hrefused with hcut | ⟨hnone, -⟩
  · exact hcut
  · have hsep : IsSeparator " AS ".toList := ⟨'A', 'S', rfl, .inr rfl, .inr (.inl rfl)⟩
    exact absurd (List.suffix_append "b..".toList " AS ".toList).isInfix (hnone _ hsep)

end QueryShorthand.Label
