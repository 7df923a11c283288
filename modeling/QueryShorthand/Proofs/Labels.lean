import QueryShorthand.Proofs.Addresses
import QueryShorthand.Proofs.Failures
import QueryShorthand.Proofs.LabelForms
import QueryShorthand.Proofs.Printing

/-! What a tree can hold when nothing but shorthand strings has been put into it. Every string
begins with a name, so the cursor is below the root before the first label is read; what is
written there has passed the checks on labels, and it can be read back as the same label. -/

namespace QueryShorthand
set_option autoImplicit false

/-! What a chunk writes -/

/-- The cursor is below the root, an alias is written further down than that, and a filter is
one that its own text reads as. -/
structure Moment.Tidy (m : Moment) : Prop where
  cursor : m.cursor ≠ []
  aliasName : ∀ a ∈ m.aliasName, 1 < m.cursor.length ∧ a ≠ [] ∧ ')' ∉ a
  filter : ∀ w ∈ m.filter, ')' ∉ w.1 ++ ':' :: w.2 ∧
    Label.ofText (w.1 ++ ':' :: w.2) = .ok (.filter w.1 w.2)

theorem Chunk.Legal.tidy_moment {c : Chunk} (h : c.Legal) (base : Path) {here : Path}
    (hopen : here = [] → c.kind ≠ .label) : (c.moment base here).Tidy := by
  have hcursor : (c.moment base here).cursor ≠ [] := cursor_ne_nil hopen
  by_cases hkind : c.kind = .label
  · have hhere : here ≠ [] := fun he => hopen he hkind
    obtain ⟨-, hparen⟩ := (legal_iff_of_label hkind).1 h
    simp only [moment, hkind]
    split
    · rename_i key value hlabel
      obtain ⟨hbody, -⟩ := Label.ofText_eq_filter_iff.1 hlabel
      rw [hbody] at hlabel hparen
      refine ⟨hhere, by simp, fun w hw => ?_⟩
      cases hw
      exact ⟨hparen, hlabel⟩
    · rename_i target name hlabel
      obtain ⟨hsplit, -, hname⟩ := Label.ofText_eq_aliased hlabel
      obtain ⟨sep, -, hbody⟩ := Label.splitSeparator_eq_some hsplit
      refine ⟨by simp [hhere], fun a ha => ?_, by simp⟩
      cases ha
      refine ⟨?_, hname, fun hmem => hparen (hbody ▸ List.mem_append_right _ hmem)⟩
      have hnames := List.length_pos_of_ne_nil (pieces_ne_nil '.' target)
      have hlength := List.length_pos_of_ne_nil hhere
      rw [List.length_append]
      omega
    · exact ⟨hhere, by simp, by simp⟩
  · rw [moment_of_name hkind] at hcursor ⊢
    exact ⟨hcursor, by simp, by simp⟩

theorem tidy_of_mem_momentsFrom {b : Batch} (hlegal : ∀ c ∈ b, c.Legal) (base : Path) {here : Path}
    (hopen : here = [] → ∀ c ∈ b.head?, c.kind ≠ .label) :
    ∀ m ∈ Batch.momentsFrom base here b, m.Tidy := by
  induction b generalizing here with
  | nil => simp [Batch.momentsFrom]
  | cons c cs ih =>
    obtain ⟨hc, hcs⟩ := List.forall_mem_cons.1 hlegal
    have hm := hc.tidy_moment base fun he => hopen he c rfl
    -- From here on the cursor is below the root, so the other chunks may be labels.
    exact List.forall_mem_cons.2 ⟨hm, ih hcs fun he => absurd he hm.cursor⟩

/-- The name that opens a batch leads below the root, so its labels are written there, wherever
the batch began. -/
theorem tidy_of_mem_momentsOfBatches {bs : List Batch} (hlegal : ∀ b ∈ bs, ∀ c ∈ b, c.Legal)
    (hopened : ∀ b ∈ bs, ∀ c ∈ b.head?, c.kind ≠ .label) (here : Path) :
    ∀ m ∈ momentsOfBatches here bs, m.Tidy := by
  induction bs generalizing here with
  | nil => simp [momentsOfBatches]
  | cons b bs ih =>
    obtain ⟨hb, hbs⟩ := List.forall_mem_cons.1 hlegal
    obtain ⟨hname, hnames⟩ := List.forall_mem_cons.1 hopened
    have hms : ∀ m ∈ Batch.momentsFrom here here b, m.Tidy :=
      tidy_of_mem_momentsFrom hb here fun _ => hname
    exact List.forall_mem_append.2 ⟨hms, ih hbs hnames _⟩

theorem tidy_of_mem_moments {specs : List Text} {m : Moment} (hm : m ∈ moments specs) : m.Tidy := by
  obtain ⟨spec, -, hspec⟩ := List.mem_flatMap.1 hm
  unfold momentsOfSpec at hspec
  split at hspec
  · rename_i bs hbs
    have hgrammar := (tokenize_eq_ok_iff.1 hbs).1
    exact tidy_of_mem_momentsOfBatches hgrammar.legal hgrammar.head_ne_label [] m hspec
  · cases hspec

theorem momentsOfSpec_ne_nil {spec : Text} (h : ∃ here, Tree.empty.parseField spec = .ok here) :
    momentsOfSpec spec ≠ [] := by
  obtain ⟨here, hhere⟩ := h
  obtain ⟨plan, hplan, -⟩ := Tree.parseField_eq_ok_iff.1 hhere
  obtain ⟨bs, hbs, -⟩ := Plan.ofSpec_eq_ok_iff.1 hplan
  obtain ⟨b, others, rfl, ⟨c, cs, rfl, -⟩, -⟩ := (tokenize_eq_ok_iff.1 hbs).1.opened
  rw [momentsOfSpec, hbs]
  simp [momentsOfBatches, Batch.momentsFrom]

/-! What a tree holds -/

namespace Tree

section
variable {t : Tree} {specs : List Text} (h : t.Means (moments specs))
include h

theorem Means.aliasName_tidy {i : Nat} {a : Text} (ha : t.aliasName i = some a) :
    1 < (t.path i).length ∧ a ≠ [] ∧ ')' ∉ a := by
  have hi : i < t.size := by
    by_contra hge
    rw [aliasName_eq_none (Nat.le_of_not_lt hge)] at ha
    cases ha
  rw [h.aliasName i hi] at ha
  obtain ⟨m, hm, hwritten⟩ := List.mem_filterMap.1 (List.mem_of_getLast? ha)
  obtain ⟨hmem, hcursor⟩ := List.mem_filter.1 hm
  rw [← of_decide_eq_true hcursor]
  exact (tidy_of_mem_moments hmem).aliasName a hwritten

/-- No alias is written at the root or right below it. -/
theorem Means.aliasName_of_length_le {i : Nat} (hi : (t.path i).length ≤ 1) : t.aliasName i = none := by
  apply Option.eq_none_iff_forall_ne_some.2
  intro a ha
  have hlength := (h.aliasName_tidy ha).1
  omega

theorem Means.filters_tidy {i : Nat} {e : Text × Text} (he : e ∈ t.filters i) :
    t.path i ≠ [] ∧ ')' ∉ e.1 ++ ':' :: e.2 ∧
      Label.ofText (e.1 ++ ':' :: e.2) = .ok (.filter e.1 e.2) := by
  have hi : i < t.size := by
    by_contra hge
    rw [filters_eq_nil (Nat.le_of_not_lt hge)] at he
    cases he
  rw [h.filters i hi] at he
  have hwrites := (List.mem_filter.1 (List.mem_of_getLast? (Filters.last_of_mem_ofWrites he))).1
  obtain ⟨m, hm, hwritten⟩ := List.mem_filterMap.1 hwrites
  obtain ⟨hmem, hcursor⟩ := List.mem_filter.1 hm
  have htidy := tidy_of_mem_moments hmem
  rw [← of_decide_eq_true hcursor]
  exact ⟨htidy.cursor, htidy.filter e hwritten⟩

theorem Means.filters_root : t.filters root = [] := by
  apply List.eq_nil_iff_forall_not_mem.2
  intro e he
  exact (h.filters_tidy he).1 h.wellFormed.path_root

theorem Means.children_root_ne_nil (hspecs : moments specs ≠ []) : t.children root ≠ [] := by
  obtain ⟨m, ms, hms⟩ := List.exists_cons_of_ne_nil hspecs
  have hm : m ∈ moments specs := hms ▸ List.mem_cons_self
  obtain ⟨i, hi, hpath⟩ := h.found m hm
  have hpos := h.wellFormed.pos_of_path_ne_nil (hpath ▸ (tidy_of_mem_moments hm).cursor)
  obtain ⟨p, s, hp, hparent, -⟩ := h.wellFormed.exists_parent Nat.one_pos (Nat.lt_of_le_of_lt hpos hi)
  rw [Nat.lt_one_iff.1 hp] at hparent
  exact List.ne_nil_of_mem ((h.wellFormed.mem_children root 1).2 hparent)

end

theorem exists_braced {texts : List Text} (h : texts ≠ []) :
    ∃ s, braced texts = '{' :: (s ++ ['}']) := by
  cases texts with
  | nil => exact absurd rfl h
  | cons first others => exact ⟨first ++ others.flatMap (',' :: ·), by simp [braced]⟩

theorem WellFormed.print_braced {t : Tree} (h : t.WellFormed) (halias : t.aliasName root = none)
    (hfilters : t.filters root = []) (hchildren : t.children root ≠ []) (sep : Text) :
    "query\x7b".toList <+: t.print sep ∧ ['}'] <:+ t.print sep := by
  have hroot : root < t.size := by
    obtain ⟨c, hc⟩ := List.exists_mem_of_ne_nil _ hchildren
    exact Nat.zero_lt_of_lt (h.lt_size_of_mem hc)
  obtain ⟨n, hn⟩ := exists_node? hroot
  have hname := h.root_name
  rw [name_of_node? hn] at hname
  rw [aliasName, hn] at halias
  rw [Tree.filters, hn] at hfilters
  rw [children_of_node? hn] at hchildren
  obtain ⟨s, hs⟩ := exists_braced (mt List.map_eq_nil_iff.1 hchildren)
  have hprint : t.print sep = "query\x7b".toList ++ (s ++ ['}']) := by
    rw [print, h.printFrom_eq hn, (h.isRoot_iff hn).2 rfl, hs]
    simp [Selection.heading, Selection.arguments, show n.aliasName = none from halias, hname,
      show n.filters = [] from hfilters]
  rw [hprint]
  exact ⟨List.prefix_append _ _, "query\x7b".toList ++ s, List.append_assoc _ _ _⟩

/-! Runs of nothing but strings -/

/-- The strings of a list that are put into a tree: those before the first that cannot be
read. -/
def accepted (specs : List Text) : List Text :=
  specs.takeWhile fun spec => (empty.parseField spec).isOk

/-- Calls with shorthand strings lead from the empty tree to `t`, and `ss` are the strings that
were accepted on the way, in order. -/
inductive Spelled : List Text → Tree → Prop where
  | start : Spelled [] .empty
  | parseField {ss : List Text} {t : Tree} (h : Spelled ss t) (spec : Text) :
      Spelled (ss ++ accepted [spec]) (t.after (.parseField spec))
  | parseFields {ss : List Text} {t : Tree} (h : Spelled ss t) (specs : List Text) :
      Spelled (ss ++ accepted specs) (t.after (.parseFields specs))

theorem after_parseField (t : Tree) (spec : Text) :
    t.after (.parseField spec) = t.after (.parseFields [spec]) := by
  simp only [after, Tree.parseFields]
  cases t.parseField spec <;> rfl

theorem after_parseFields (t : Tree) (specs : List Text) :
    t.after (.parseFields specs) = t.applied (accepted specs) := by
  induction specs generalizing t with
  | nil => rfl
  | cons spec specs ih =>
    rw [accepted, List.takeWhile_cons]
    -- What the empty tree accepts every tree accepts.
    cases hspec : empty.parseField spec with
    | error e =>
      have hp : t.parseField spec = .error e := parseField_eq_error_iff.2 (parseField_eq_error_iff.1 hspec)
      rw [after, Tree.parseFields, hp]
      rfl
    | ok here =>
      obtain ⟨⟨u, id⟩, hp⟩ := exists_parseField ⟨here, hspec⟩ t
      rw [after, Tree.parseFields, hp]
      exact (ih u).trans (applied_cons hp _).symm

theorem readable_of_mem_accepted {specs : List Text} {spec : Text} (h : spec ∈ accepted specs) :
    ∃ here, empty.parseField spec = .ok here :=
  readable_of_isOk (fun _ => List.mem_takeWhile_imp) spec h

theorem Spelled.parseFields_eq {ss : List Text} {t : Tree} (h : Spelled ss t) :
    (∀ spec ∈ ss, ∃ here, empty.parseField spec = .ok here) ∧ empty.parseFields ss = (t, none) := by
  have hrun : (∀ spec ∈ ss, ∃ here, empty.parseField spec = .ok here) ∧ t = empty.applied ss := by
    induction h with
    | start => exact ⟨by simp, rfl⟩
    | parseField _ spec ih =>
      obtain ⟨hss, rfl⟩ := ih
      rw [after_parseField, after_parseFields, applied_append]
      exact ⟨List.forall_mem_append.2 ⟨hss, fun _ => readable_of_mem_accepted⟩, rfl⟩
    | parseFields _ specs ih =>
      obtain ⟨hss, rfl⟩ := ih
      rw [after_parseFields, applied_append]
      exact ⟨List.forall_mem_append.2 ⟨hss, fun _ => readable_of_mem_accepted⟩, rfl⟩
  obtain ⟨hss, rfl⟩ := hrun
  exact ⟨hss, parseFields_of_readable _ hss⟩

/-- Labels are never given to the root, nor aliases to the fields of the top level. No name,
alias, key or value is empty, none holds a character that would have ended it, and no filter
could be taken for an alias: it is read back from its own text. -/
theorem Spelled.labels {ss : List Text} {t : Tree} (h : Spelled ss t) :
    (t.aliasName root = none ∧ t.filters root = []) ∧
    (∀ c ∈ t.children root, t.aliasName c = none) ∧
    (∀ i, 0 < i → i < t.size → ∃ s, t.name i = some s ∧ s ≠ [] ∧ '.' ∉ s ∧ ')' ∉ s) ∧
    (∀ i a, t.aliasName i = some a → a ≠ [] ∧ ')' ∉ a) ∧
    (∀ i, ∀ e ∈ t.filters i,
      (e.1 ≠ [] ∧ ':' ∉ e.1 ∧ ')' ∉ e.1) ∧ (e.2 ≠ [] ∧ ')' ∉ e.2) ∧
      (∀ sep, Label.IsSeparator sep → ¬ sep <:+: e.1 ++ ':' :: e.2) ∧
      Label.ofText (e.1 ++ ':' :: e.2) = .ok (.filter e.1 e.2)) ∧
    (ss ≠ [] → ∀ sep, "query\x7b".toList <+: t.print sep ∧ ['}'] <:+ t.print sep) := by
  obtain ⟨hread, hrun⟩ := h.parseFields_eq
  have hm : t.Means (moments ss) := means_empty.parseFields (by simp) hrun
  have hw := hm.wellFormed
  have halias : t.aliasName root = none := hm.aliasName_of_length_le (by simp [hw.path_root])
  refine ⟨⟨halias, hm.filters_root⟩, fun c hc => ?_, fun i hi hlt => ?_,
    fun i a ha => (hm.aliasName_tidy ha).2, fun i e he => ?_, fun hne sep => ?_⟩
  · obtain ⟨-, -, s, hpath⟩ := hw.child_path hc
    exact hm.aliasName_of_length_le (by simp [hpath, hw.path_root])
  · obtain ⟨p, s, -, -, hs, hpath⟩ := hw.exists_parent hi hlt
    exact ⟨s, hs, hm.names hi hlt s (by simp [hpath])⟩
  · obtain ⟨-, hparen, hlabel⟩ := hm.filters_tidy he
    obtain ⟨-, hcolon, hkey, hvalue, hsep⟩ := Label.ofText_eq_filter_iff.1 hlabel
    simp only [List.mem_append, List.mem_cons, not_or] at hparen
    exact ⟨⟨hkey, hcolon, hparen.1⟩, ⟨hvalue, hparen.2.2⟩, hsep, hlabel⟩
  · refine hw.print_braced halias hm.filters_root (hm.children_root_ne_nil ?_) sep
    obtain ⟨spec, specs, rfl⟩ := List.exists_cons_of_ne_nil hne
    intro hnil
    exact momentsOfSpec_ne_nil (hread spec List.mem_cons_self) (List.append_eq_nil_iff.1 hnil).1

/-- The label of the second string cannot be read, and the list of the last call stops at its
third string. -/
def spelledRun : Tree :=
  ((Tree.empty.after (.parseField "a(b as x:y)(k:v as)".toList)).after
    (.parseField "a.b(as z)".toList)).after
      (.parseFields ["c(k:1:2),d".toList, "a(b.c aſ w)".toList, "e)".toList, "f".toList])

theorem Spelled.labels_spelledRun :
    ∃ ss, Spelled ss spelledRun ∧
      ss = ["a(b as x:y)(k:v as)".toList, "c(k:1:2),d".toList, "a(b.c aſ w)".toList] ∧
      spelledRun.aliasName 5 = some "w".toList ∧ ')' ∉ "w".toList ∧
      ("k".toList, "v as".toList) ∈ spelledRun.filters 2 ∧
      Label.ofText "k:v as".toList = .ok (.filter "k".toList "v as".toList) ∧
      ∀ sep, "query\x7b".toList <+: spelledRun.print sep ∧ ['}'] <:+ spelledRun.print sep := by
  have hrun := ((Spelled.start.parseField "a(b as x:y)(k:v as)".toList).parseField
    "a.b(as z)".toList).parseFields
      ["c(k:1:2),d".toList, "a(b.c aſ w)".toList, "e)".toList, "f".toList]
  obtain ⟨-, -, -, haliases, hfilters, hprint⟩ := hrun.labels
  have halias : spelledRun.aliasName 5 = some "w".toList := by decide +kernel
  have hfilter : ("k".toList, "v as".toList) ∈ spelledRun.filters 2 := by decide +kernel
  exact ⟨_, hrun, by decide +kernel, halias, (haliases 5 _ halias).2, hfilter,
    (hfilters 2 _ hfilter).2.2.2, hprint (by decide +kernel)⟩

end Tree

end QueryShorthand
