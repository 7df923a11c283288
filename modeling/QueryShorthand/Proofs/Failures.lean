import QueryShorthand.Proofs.Edits
import QueryShorthand.Proofs.Grammar
import QueryShorthand.Proofs.Plans
import QueryShorthand.Query

/-! What happens when strings cannot be put into a tree. The string alone decides about the
error, a fault of the scan before a label that cannot be read, and of several labels the
leftmost. A list of strings stays applied up to its first bad one. -/

namespace QueryShorthand
set_option autoImplicit false

theorem Chunk.step_eq_error_iff {c : Chunk} {fault : Fault} :
    c.step = .error fault ↔
      c.kind = .label ∧ Label.ofText c.text = .error fault.reason ∧ fault.position = c.position := by
  unfold step
  cases hkind : c.kind with
  | start => simp
  | descend => simp
  | sibling => simp
  | label =>
    obtain ⟨position, reason⟩ := fault
    cases Label.ofText c.text with
    | ok label => simp
    | error reason' => simp [eq_comm, and_comm]

theorem Chunk.exists_step_iff {c : Chunk} :
    (∃ step, c.step = .ok step) ↔
      (c.kind = .label → ∃ label, Label.ofText c.text = .ok label) := by
  unfold step
  cases hkind : c.kind with
  | start => simp
  | descend => simp
  | sibling => simp
  | label =>
    cases Label.ofText c.text with
    | ok label => simp
    | error reason => simp

/-- The error is about the leftmost label that is neither a filter nor an alias, and it
points at the parenthesis that opens it. -/
def ParseError.AtFirstBadLabel (e : ParseError) (bs : List Batch) : Prop :=
  ∃ before c behind, bs.flatten = before ++ c :: behind ∧ c.kind = .label ∧
    Label.ofText c.text = .error e.reason ∧
    (∀ d ∈ before, d.kind = .label → ∃ label, Label.ofText d.text = .ok label) ∧
    e.spec = Batch.written before ++ '(' :: (c.text ++ ')' :: Batch.written behind) ∧
    e.position = (Batch.written before).length

theorem Plan.ofSpec_of_tokenize_error {spec : Text} {e : ParseError} (h : tokenize spec = .error e) :
    Plan.ofSpec spec = .error e := by
  unfold ofSpec
  rw [h]
  rfl

theorem Plan.ofSpec_eq_error_iff {spec : Text} {bs : List Batch} (h : tokenize spec = .ok bs)
    {e : ParseError} : Plan.ofSpec spec = .error e ↔ e.spec = spec ∧ e.AtFirstBadLabel bs := by
  obtain ⟨hgrammar, hwritten⟩ := tokenize_eq_ok_iff.1 h
  have hplan : Plan.ofSpec spec = .error e ↔
      ∃ fault, bs.mapM (List.mapM Chunk.step) = .error fault ∧ e = fault.inside spec := by
    unfold ofSpec
    rw [h]
    change Except.mapError _ _ = _ ↔ _
    cases bs.mapM (List.mapM Chunk.step) <;> simp [Except.mapError, eq_comm]
  have hlabel {before behind : List Chunk} {c : Chunk} (hbs : bs.flatten = before ++ c :: behind)
      (hkind : c.kind = .label) :
      spec = Batch.written before ++ '(' :: (c.text ++ ')' :: Batch.written behind) := by
    rw [← hwritten, hbs]
    simp [Chunk.written, hkind]
  rw [hplan]
  simp only [mapM_mapM_eq_error_iff, Chunk.step_eq_error_iff, Chunk.exists_step_iff]
  constructor
  · rintro ⟨fault, ⟨before, c, behind, hbs, hbefore, hkind, hreason, hposition⟩, rfl⟩
    refine ⟨rfl, before, c, behind, hbs, hkind, hreason, hbefore, hlabel hbs hkind, ?_⟩
    exact hposition.trans (hgrammar.positioned before c behind hbs)
  · rintro ⟨rfl, before, c, behind, hbs, hkind, hreason, hbefore, -, hposition⟩
    refine ⟨e.toFault, ⟨before, c, behind, hbs, hbefore, hkind, hreason, ?_⟩, rfl⟩
    exact hposition.trans (hgrammar.positioned before c behind hbs).symm

namespace Tree

/-- The tree behind strings that are put into it one by one. -/
def applied (t : Tree) (specs : List Text) : Tree :=
  specs.foldl (fun u spec => u.after (.parseField spec)) t

theorem applied_append (t : Tree) (before specs : List Text) :
    t.applied (before ++ specs) = (t.applied before).applied specs :=
  List.foldl_append

theorem applied_cons {t : Tree} {spec : Text} {here : Tree × Nat} (h : t.parseField spec = .ok here)
    (specs : List Text) : t.applied (spec :: specs) = here.1.applied specs := by
  rw [applied, List.foldl_cons, after, h]
  rfl

theorem parseFields_append (t : Tree) {before : List Text}
    (h : ∀ spec ∈ before, ∃ here, empty.parseField spec = .ok here) (specs : List Text) :
    t.parseFields (before ++ specs) = (t.applied before).parseFields specs := by
  induction before generalizing t with
  | nil => rfl
  | cons spec before ih =>
    obtain ⟨hspec, hbefore⟩ := List.forall_mem_cons.1 h
    obtain ⟨⟨u, id⟩, hu⟩ := exists_parseField hspec t
    rw [List.cons_append, parseFields, hu, applied_cons hu]
    exact ih u hbefore

theorem parseFields_of_readable (t : Tree) {specs : List Text}
    (h : ∀ spec ∈ specs, ∃ here, empty.parseField spec = .ok here) :
    t.parseFields specs = (t.applied specs, none) := by
  have hall := t.parseFields_append h []
  rwa [List.append_nil, parseFields] at hall

/-- A list of strings whose first bad one has the error `e`. The strings before it can be
read, those behind it do not matter. -/
def StopsAt (before : List Text) (e : ParseError) (specs : List Text) : Prop :=
  ∃ spec behind, specs = before ++ spec :: behind ∧
    (∀ s ∈ before, ∃ here, empty.parseField s = .ok here) ∧ empty.parseField spec = .error e

theorem parseFields_of_stopsAt (t : Tree) {before specs : List Text} {e : ParseError}
    (h : StopsAt before e specs) : t.parseFields specs = (t.applied before, some e) := by
  obtain ⟨spec, behind, rfl, hbefore, hspec⟩ := h
  have he : (t.applied before).parseField spec = .error e :=
    parseField_eq_error_iff.2 (parseField_eq_error_iff.1 hspec)
  rw [t.parseFields_append hbefore, parseFields, he]

theorem readable_or_stopsAt (specs : List Text) :
    (∀ spec ∈ specs, ∃ here, empty.parseField spec = .ok here) ∨
      ∃ before e, StopsAt before e specs := by
  induction specs with
  | nil => exact .inl (by simp)
  | cons spec specs ih =>
    cases hspec : empty.parseField spec with
    | error e => exact .inr ⟨[], e, spec, specs, rfl, by simp, hspec⟩
    | ok here =>
      rcases ih with hall | ⟨before, e, spec', behind, rfl, hbefore, he⟩
      · exact .inl (List.forall_mem_cons.2 ⟨⟨here, hspec⟩, hall⟩)
      · exact .inr ⟨spec :: before, e, spec', behind, rfl,
          List.forall_mem_cons.2 ⟨⟨here, hspec⟩, hbefore⟩, he⟩

theorem parseFields_eq_some_iff {t u : Tree} {specs : List Text} {e : ParseError} :
    t.parseFields specs = (u, some e) ↔ ∃ before, StopsAt before e specs ∧ u = t.applied before := by
  constructor
  · intro h
    rcases readable_or_stopsAt specs with hall | ⟨before, e', hstop⟩
    · rw [t.parseFields_of_readable hall] at h
      cases h
    · rw [t.parseFields_of_stopsAt hstop] at h
      cases h
      exact ⟨before, hstop, rfl⟩
  · intro h
    obtain ⟨before, hstop, rfl⟩ := h
    exact t.parseFields_of_stopsAt hstop

/-- What goes wrong in a list of strings goes wrong in every tree. -/
theorem parseFields_error_iff {t : Tree} {specs : List Text} {e : ParseError} :
    (t.parseFields specs).2 = some e ↔ ∃ before, StopsAt before e specs := by
  constructor
  · intro h
    obtain ⟨before, hstop, -⟩ := parseFields_eq_some_iff.1 (Prod.ext rfl h)
    exact ⟨before, hstop⟩
  · intro h
    obtain ⟨before, hstop⟩ := h
    rw [t.parseFields_of_stopsAt hstop]

theorem exists_stopsAt_iff {specs : List Text} :
    (∃ before e, StopsAt before e specs) ↔ ∃ spec ∈ specs, ∃ e, empty.parseField spec = .error e := by
  constructor
  · intro h
    obtain ⟨before, e, spec, behind, rfl, -, hspec⟩ := h
    exact ⟨spec, by simp, e, hspec⟩
  · intro h
    obtain ⟨spec, hmem, e, hspec⟩ := h
    rcases readable_or_stopsAt specs with hall | hstop
    · obtain ⟨here, hok⟩ := hall spec hmem
      rw [hspec] at hok
      cases hok
    · exact hstop

end Tree

theorem buildQuery_eq_parse_iff {specs : List Text} {commaArgs : Bool} {e : ParseError} :
    buildQuery specs commaArgs = .error (.parse e) ↔ (Tree.empty.parseFields specs).2 = some e := by
  unfold buildQuery parseFields
  split
  · rename_i hnil
    simp [hnil, Tree.parseFields]
  · rcases Tree.empty.parseFields specs with ⟨t, _ | e'⟩ <;> simp

/-- What is wrong with a string does not depend on the tree, and a string that cannot be read
leaves the tree as it was. A fault of the scan comes before every bad label, and of several
bad labels the leftmost is reported. A list stops at its first bad string, with the error of
that string and with the strings before it applied, and no document is made of it. -/
theorem parse_failure (t : Tree) :
    (∀ spec e, t.parseField spec = .error e →
      t.after (.parseField spec) = t ∧ ∀ u : Tree, u.parseField spec = .error e) ∧
    (∀ spec e, t.parseField spec = .error e ↔
      tokenize spec = .error e ∨
        ∃ bs, tokenize spec = .ok bs ∧ e.spec = spec ∧ e.AtFirstBadLabel bs) ∧
    ∀ specs,
      ((∃ e, (t.parseFields specs).2 = some e) ↔
        ∃ spec ∈ specs, ∃ e, Tree.empty.parseField spec = .error e) ∧
      (∀ u e, t.parseFields specs = (u, some e) ↔
        ∃ before, Tree.StopsAt before e specs ∧ u = t.applied before) ∧
      ∀ e commaArgs,
        buildQuery specs commaArgs = .error (.parse e) ↔ (t.parseFields specs).2 = some e := by
  refine ⟨fun spec e h => ⟨?_, fun u => ?_⟩, fun spec e => ?_,
    fun specs => ⟨?_, fun u e => Tree.parseFields_eq_some_iff, fun e commaArgs => ?_⟩⟩
  · simp only [Tree.after, h]
  · exact Tree.parseField_eq_error_iff.2 (Tree.parseField_eq_error_iff.1 h)
  · rw [Tree.parseField_eq_error_iff]
    cases htok : tokenize spec with
    | error e' => simp [Plan.ofSpec_of_tokenize_error htok]
    | ok bs => simp [Plan.ofSpec_eq_error_iff htok]
  · rw [← Tree.exists_stopsAt_iff, exists_comm]
    exact exists_congr fun e => Tree.parseFields_error_iff
  · rw [buildQuery_eq_parse_iff, Tree.parseFields_error_iff, Tree.parseFields_error_iff]

/-- The bad label at 1 goes unreported, since the text behind it spoils the scan. -/
example : Plan.ofSpec "a(b)c".toList = .error ⟨⟨4, .trailingText⟩, "a(b)c".toList⟩ := by
  decide +kernel

end QueryShorthand
