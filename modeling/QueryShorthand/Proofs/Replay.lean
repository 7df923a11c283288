import QueryShorthand.Proofs.Grammar
import QueryShorthand.Proofs.Meaning
import QueryShorthand.Proofs.Plans
import QueryShorthand.Proofs.Writes

/-! The tree that shorthand strings build has a node for every path on the way of their
cursor, in the order in which the cursor first came there, and carries what was last
written. Each chunk does to the tree what its moment says, and this is kept along batches,
strings and lists of strings. -/

namespace QueryShorthand
set_option autoImplicit false

namespace Tree

/-- The nodes are the paths that the cursor has seen, in the order in which it first
reached them, and they carry what the moments have written. -/
structure Means (t : Tree) (ms : List Moment) : Prop where
  wellFormed : t.WellFormed
  seen : ∀ i, 0 < i → i < t.size → Seen ms (t.path i)
  found : ∀ m ∈ ms, ∃ i, i < t.size ∧ t.path i = m.cursor
  ordered : ∀ i j, 0 < i → i < j → j < t.size →
    firstReach ms (t.path i) ≤ firstReach ms (t.path j)
  aliasName : ∀ i, i < t.size → t.aliasName i = (aliasesAt ms (t.path i)).getLast?
  filters : ∀ i, i < t.size → t.filters i = Filters.ofWrites (filtersAt ms (t.path i))

/-- The tree and node behind a moment that finds the tree `t`. -/
structure Advances (t : Tree) (m : Moment) (here : Tree × Nat) : Prop
    extends Grows t m.cursor here where
  aliasName : ∀ i, here.1.aliasName i =
    if i = here.2 then m.aliasName.or (t.aliasName i) else t.aliasName i
  filters : ∀ i, here.1.filters i =
    if i = here.2 then m.filter.elim (t.filters i) (fun w => (t.filters i).put w.1 w.2)
    else t.filters i

theorem Means.seen_iff {t : Tree} {ms : List Moment} (h : t.Means ms) {p : Path} (hp : p ≠ []) :
    Seen ms p ↔ ∃ i, i < t.size ∧ t.path i = p := by
  constructor
  · intro hs
    obtain ⟨m, hm, hprefix⟩ := hs
    obtain ⟨i, hi, hpath⟩ := h.found m hm
    exact h.wellFormed.exists_of_prefix hi (hpath ▸ hprefix)
  · intro he
    obtain ⟨i, hi, rfl⟩ := he
    exact h.seen i (h.wellFormed.pos_of_path_ne_nil hp) hi

theorem Advances.cursor_eq_iff {t : Tree} {m : Moment} {here : Tree × Nat} (ha : t.Advances m here)
    {i : Nat} (hlt : i < here.1.size) : m.cursor = here.1.path i ↔ i = here.2 := by
  constructor
  · intro he
    exact ha.wellFormed.path_inj hlt ha.lt_size (he.symm.trans ha.arrived.symm)
  · rintro rfl
    exact ha.arrived.symm

/-! What one step does -/

theorem Grows.relabel {t u u' : Tree} {goal : Path} {k : Nat} (h : t.Grows goal (u, k))
    (hw : u'.WellFormed) (hsize : u'.size = u.size) (hpath : u'.path = u.path) :
    t.Grows goal (u', k) := by
  refine ⟨hw, ?_, ?_, ?_, fun i hi => ?_, fun i hle hlt => ?_⟩
  · exact Nat.lt_of_lt_of_eq h.lt_size hsize.symm
  · exact (congrFun hpath k).trans h.arrived
  · exact hsize ▸ h.size_le
  · exact (congrFun hpath i).trans (h.path i hi)
  · exact congrFun hpath i ▸ h.fresh i hle (Nat.lt_of_lt_of_eq hlt hsize)

theorem WellFormed.advances_path {t : Tree} (h : t.WellFormed) {id : Nat} (hid : id < t.size)
    (path : Text) : t.Advances ⟨t.path id ++ pieces '.' path, none, none⟩ (t.resolve id path) := by
  obtain ⟨halias, hfilters⟩ := labels_resolve hid path
  refine ⟨h.grows_resolve hid path, fun i => ?_, fun i => ?_⟩
  · rw [halias]
    simp
  · rw [hfilters]
    simp

theorem WellFormed.advances_resolve {t : Tree} (h : t.WellFormed) {id : Nat} (hid : id < t.size)
    {name : Text} (hdot : '.' ∉ name) :
    t.Advances ⟨t.path id ++ [name], none, none⟩ (t.resolve id name) := by
  have hpath := h.advances_path hid name
  rwa [pieces_of_not_mem hdot] at hpath

theorem WellFormed.advances_setFilter {t : Tree} (h : t.WellFormed) {id : Nat} (hid : id < t.size)
    (key value : Text) :
    t.Advances ⟨t.path id, none, some (key, value)⟩ (t.setFilter id key value, id) := by
  refine ⟨(Grows.refl h hid).relabel (h.edit (.setFilter hid key value)) (by simp) (by simp),
    fun i => ?_, fun i => filters_setFilter hid key value i⟩
  rw [aliasName_setFilter]
  simp

theorem WellFormed.advances_alias {t : Tree} (h : t.WellFormed) {id : Nat} (hid : id < t.size)
    (name : Text) : t.Advances ⟨t.path id, some name, none⟩ (t.setAlias id name, id) := by
  refine ⟨(Grows.refl h hid).relabel (h.edit (.setAlias hid name)) (by simp) (by simp),
    fun i => aliasName_setAlias hid name i, fun i => ?_⟩
  rw [filters_setAlias]
  simp

theorem WellFormed.advances_setAlias {t : Tree} (h : t.WellFormed) {id : Nat} (hid : id < t.size)
    (target name : Text) :
    t.Advances ⟨t.path id ++ pieces '.' target, some name, none⟩
      ((t.resolve id target).1.setAlias (t.resolve id target).2 name, (t.resolve id target).2) := by
  have hgrows := h.grows_resolve hid target
  obtain ⟨halias, hfilters⟩ := labels_resolve hid target
  refine ⟨hgrows.relabel (hgrows.wellFormed.edit (.setAlias hgrows.lt_size name))
    (size_setAlias ..) (path_setAlias ..), fun i => ?_, fun i => ?_⟩
  · rw [aliasName_setAlias hgrows.lt_size, halias]
    simp
  · rw [filters_setAlias, hfilters]
    simp

theorem WellFormed.advances_follow {t : Tree} (h : t.WellFormed) {base id : Nat}
    (hbase : base < t.size) (hid : id < t.size) {c : Chunk} {step : Step} (hlegal : c.Legal)
    (hstep : c.step = .ok step) :
    t.Advances (c.moment (t.path base) (t.path id)) (follow base (t, id) step) := by
  by_cases hkind : c.kind = .label
  · obtain ⟨label, hlabel, rfl⟩ := Chunk.exists_label_of_step hkind hstep
    simp only [Chunk.moment, hkind, hlabel]
    cases label with
    | filter key value => exact h.advances_setFilter hid key value
    | aliased target name => exact h.advances_setAlias hid target name
  · have hname := ((Chunk.legal_iff_of_name hkind).1 hlegal).2
    have hdot : '.' ∉ c.text := (forall_isNameChar_iff.1 hname).1
    rw [Chunk.moment_of_name hkind, Chunk.follow_of_name hkind hstep]
    split
    · exact h.advances_resolve hbase hdot
    · exact h.advances_resolve hid hdot

/-! What a run does -/

/-- Moments lead from one tree to another, each of them advancing it. -/
inductive Walks (t : Tree) : List Moment → Tree → Prop where
  | start (h : t.WellFormed) : Walks t [] t
  | next {ms : List Moment} {m : Moment} {u : Tree} {here : Tree × Nat} (h : Walks t ms u)
      (ha : u.Advances m here) : Walks t (ms ++ [m]) here.1

section
variable {t u v : Tree} {ms ms' : List Moment}

theorem Walks.trans (h : t.Walks ms u) (h' : u.Walks ms' v) : t.Walks (ms ++ ms') v := by
  induction h' with
  | start => rwa [List.append_nil]
  | next _ ha ih =>
    rw [← List.append_assoc]
    exact .next ih ha

theorem Walks.wellFormed_start (h : t.Walks ms u) : t.WellFormed := by
  induction h with
  | start h => exact h
  | next _ _ ih => exact ih

theorem Walks.wellFormed (h : t.Walks ms u) : u.WellFormed := by
  cases h with
  | start h => exact h
  | next _ ha => exact ha.wellFormed

theorem Walks.size_le (h : t.Walks ms u) : t.size ≤ u.size := by
  induction h with
  | start => exact Nat.le_refl _
  | next _ ha ih => exact Nat.le_trans ih ha.size_le

theorem Walks.path (h : t.Walks ms u) {i : Nat} (hi : i < t.size) : u.path i = t.path i := by
  induction h with
  | start => rfl
  | next h ha ih => rw [ha.path i (Nat.lt_of_lt_of_le hi h.size_le), ih]

theorem Walks.found (h : t.Walks ms u) : ∀ m ∈ ms, ∃ i, i < u.size ∧ u.path i = m.cursor := by
  induction h with
  | start => simp
  | @next ms m u here h ha ih =>
    intro m' hm'
    rcases List.mem_append.1 hm' with hold | hnew
    · obtain ⟨i, hi, hpath⟩ := ih m' hold
      exact ⟨i, Nat.lt_of_lt_of_le hi ha.size_le, (ha.path i hi).trans hpath⟩
    · cases List.mem_singleton.1 hnew
      exact ⟨here.2, ha.lt_size, ha.arrived⟩

theorem Walks.fresh (h : t.Walks ms u) {i : Nat} (hle : t.size ≤ i) (hlt : i < u.size) :
    Seen ms (u.path i) := by
  induction h with
  | start => exact absurd hlt (Nat.not_lt.2 hle)
  | @next ms m u here h ha ih =>
    rcases Nat.lt_or_ge i u.size with hold | hnew
    · rw [ha.path i hold]
      exact seen_append.2 (.inl (ih hold))
    · exact ⟨m, by simp, ha.fresh i hnew hlt⟩

/-- A field that is added on the way is on no path that led to one that was there before. -/
theorem Walks.unseen (h : t.Walks ms' u) (hfound : ∀ m ∈ ms, ∃ i, i < t.size ∧ t.path i = m.cursor)
    {i : Nat} (hle : t.size ≤ i) (hlt : i < u.size) : ¬ Seen ms (u.path i) := by
  intro hs
  obtain ⟨m, hm, hprefix⟩ := hs
  obtain ⟨j, hj, hcursor⟩ := hfound m hm
  obtain ⟨k, hk, hsame⟩ := h.wellFormed_start.exists_of_prefix hj (hcursor ▸ hprefix)
  have hki := h.wellFormed.path_inj (Nat.lt_of_lt_of_le hk h.size_le) hlt ((h.path hk).trans hsame)
  omega

theorem Walks.unseen_next (h : t.Walks ms u) {m : Moment} {here : Tree × Nat}
    (ha : u.Advances m here) {i : Nat} (hle : u.size ≤ i) (hlt : i < here.1.size) : ¬ Seen ms (here.1.path i) :=
  ((Walks.start h.wellFormed).next ha).unseen h.found hle hlt

theorem Walks.ordered (h : t.Walks ms u) {i j : Nat} (hi : t.size ≤ i) (hij : i < j)
    (hj : j < u.size) : firstReach ms (u.path i) ≤ firstReach ms (u.path j) := by
  induction h with
  | start => omega
  | @next ms m u here h ha ih =>
    rcases Nat.lt_or_ge j u.size with hold | hnew
    · have hiold : i < u.size := Nat.lt_trans hij hold
      have hsi := h.fresh hi hiold
      have hsj := h.fresh (Nat.le_trans hi (Nat.le_of_lt hij)) hold
      rw [ha.path i hiold, ha.path j hold, firstReach_append_of_seen hsi,
        firstReach_append_of_seen hsj]
      exact ih hold
    · have hlast := firstReach_lt_iff.2 ((h.next ha).fresh hi (Nat.lt_trans hij hj))
      rw [List.length_append, List.length_singleton] at hlast
      rw [firstReach_append_of_unseen (h.unseen_next ha hnew hj)]
      exact Nat.le_trans (Nat.le_of_lt_succ hlast) (Nat.le_add_right _ _)

theorem Walks.aliasName (h : t.Walks ms u) {i : Nat} (hlt : i < u.size) :
    u.aliasName i = (aliasesAt ms (u.path i)).getLast?.or (t.aliasName i) := by
  induction h with
  | start => rfl
  | @next ms m u here h ha ih =>
    have hbefore : u.aliasName i = (aliasesAt ms (here.1.path i)).getLast?.or (t.aliasName i) := by
      rcases Nat.lt_or_ge i u.size with hold | hnew
      · rw [ha.path i hold]
        exact ih hold
      · rw [aliasName_eq_none hnew, aliasName_eq_none (Nat.le_trans h.size_le hnew),
          aliasesAt_eq_nil (h.unseen_next ha hnew hlt)]
        rfl
    rw [aliasesAt_append, aliasesAt_singleton, List.getLast?_append, ha.aliasName, hbefore]
    simp only [ha.cursor_eq_iff hlt]
    split
    · cases m.aliasName <;> rfl
    · rfl

theorem Walks.filters (h : t.Walks ms u) {i : Nat} (hlt : i < u.size) :
    u.filters i = (t.filters i).putAll (filtersAt ms (u.path i)) := by
  induction h with
  | start => rfl
  | @next ms m u here h ha ih =>
    have hbefore : u.filters i = (t.filters i).putAll (filtersAt ms (here.1.path i)) := by
      rcases Nat.lt_or_ge i u.size with hold | hnew
      · rw [ha.path i hold]
        exact ih hold
      · rw [filters_eq_nil hnew, filters_eq_nil (Nat.le_trans h.size_le hnew),
          filtersAt_eq_nil (h.unseen_next ha hnew hlt)]
        rfl
    rw [filtersAt_append, filtersAt_singleton, Filters.putAll_append, ha.filters, hbefore]
    simp only [ha.cursor_eq_iff hlt]
    split
    · cases m.filter <;> rfl
    · rfl

theorem Means.ordered_append (h : t.Means ms) (h' : t.Walks ms' u) {i j : Nat} (hi : 0 < i)
    (hij : i < j) (hj : j < u.size) :
    firstReach (ms ++ ms') (u.path i) ≤ firstReach (ms ++ ms') (u.path j) := by
  have hold {k : Nat} (hk : 0 < k) (hlt : k < t.size) :
      Seen ms (t.path k) ∧ firstReach (ms ++ ms') (u.path k) = firstReach ms (t.path k) := by
    have hs := h.seen k hk hlt
    rw [h'.path hlt]
    exact ⟨hs, firstReach_append_of_seen hs⟩
  have hnew {k : Nat} (hle : t.size ≤ k) (hlt : k < u.size) :
      firstReach (ms ++ ms') (u.path k) = ms.length + firstReach ms' (u.path k) :=
    firstReach_append_of_unseen (h'.unseen h.found hle hlt)
  rcases Nat.lt_or_ge i t.size with hiold | hinew
  · obtain ⟨hsi, hri⟩ := hold hi hiold
    rcases Nat.lt_or_ge j t.size with hjold | hjnew
    · rw [hri, (hold (Nat.lt_trans hi hij) hjold).2]
      exact h.ordered i j hi hij hjold
    · rw [hri, hnew hjnew hj]
      exact Nat.le_trans (Nat.le_of_lt (firstReach_lt_iff.2 hsi)) (Nat.le_add_right _ _)
  · rw [hnew hinew (Nat.lt_trans hij hj), hnew (Nat.le_trans hinew (Nat.le_of_lt hij)) hj]
    exact Nat.add_le_add_left (h'.ordered hinew hij hj) _

theorem Means.walks (h : t.Means ms) (h' : t.Walks ms' u) : u.Means (ms ++ ms') := by
  refine ⟨h'.wellFormed, fun i hi hlt => ?_, fun m hm => ?_,
    fun i j hi hij hj => h.ordered_append h' hi hij hj, fun i hlt => ?_, fun i hlt => ?_⟩
  · rcases Nat.lt_or_ge i t.size with hold | hnew
    · rw [h'.path hold]
      exact seen_append.2 (.inl (h.seen i hi hold))
    · exact seen_append.2 (.inr (h'.fresh hnew hlt))
  · rcases List.mem_append.1 hm with hold | hnew
    · obtain ⟨i, hi, hpath⟩ := h.found m hold
      exact ⟨i, Nat.lt_of_lt_of_le hi h'.size_le, (h'.path hi).trans hpath⟩
    · exact h'.found m hnew
  · have hbefore : t.aliasName i = (aliasesAt ms (u.path i)).getLast? := by
      rcases Nat.lt_or_ge i t.size with hold | hnew
      · rw [h'.path hold]
        exact h.aliasName i hold
      · rw [aliasName_eq_none hnew, aliasesAt_eq_nil (h'.unseen h.found hnew hlt)]
        rfl
    rw [h'.aliasName hlt, hbefore, aliasesAt_append, List.getLast?_append]
  · have hbefore : t.filters i = Filters.ofWrites (filtersAt ms (u.path i)) := by
      rcases Nat.lt_or_ge i t.size with hold | hnew
      · rw [h'.path hold]
        exact h.filters i hold
      · rw [filters_eq_nil hnew, filtersAt_eq_nil (h'.unseen h.found hnew hlt)]
        rfl
    rw [h'.filters hlt, hbefore, filtersAt_append]
    exact (Filters.putAll_append [] _ _).symm

end

/-- The moments so far lead to the tree, and the current node is where the cursor is. -/
structure Arrives (t : Tree) (ms : List Moment) (cursor : Path) (here : Tree × Nat) : Prop where
  walks : t.Walks ms here.1
  lt_size : here.2 < here.1.size
  path : here.1.path here.2 = cursor

section
variable {t : Tree} {ms : List Moment} {here : Tree × Nat} {cursor : Path}

theorem Arrives.follow {base : Nat} {start : Path} (h : t.Arrives ms cursor here)
    (hbase : base < here.1.size) (hstart : here.1.path base = start) {c : Chunk} {step : Step}
    (hlegal : c.Legal) (hstep : c.step = .ok step) :
    t.Arrives (ms ++ [c.moment start cursor]) (c.moment start cursor).cursor
        (follow base here step) ∧
      base < (Tree.follow base here step).1.size ∧
      (Tree.follow base here step).1.path base = start := by
  have ha := h.walks.wellFormed.advances_follow hbase h.lt_size hlegal hstep
  rw [h.path, hstart] at ha
  exact ⟨⟨h.walks.next ha, ha.lt_size, ha.arrived⟩, Nat.lt_of_lt_of_le hbase ha.size_le,
    (ha.path base hbase).trans hstart⟩

theorem Arrives.steps {base : Nat} {start : Path} (h : t.Arrives ms cursor here)
    (hbase : base < here.1.size) (hstart : here.1.path base = start) {b : Batch}
    {steps : List Step} (hlegal : ∀ c ∈ b, c.Legal) (hsteps : b.Planned steps) :
    t.Arrives (ms ++ Batch.momentsFrom start cursor b)
      (cursorBehind cursor (Batch.momentsFrom start cursor b))
      (steps.foldl (Tree.follow base) here) := by
  induction hsteps generalizing ms here cursor with
  | nil => simpa [Batch.momentsFrom, cursorBehind] using h
  | cons hstep _ ih =>
    obtain ⟨hc, hcs⟩ := List.forall_mem_cons.1 hlegal
    obtain ⟨hfollow, hbase', hstart'⟩ := h.follow hbase hstart hc hstep
    have hrest := ih hfollow hbase' hstart' hcs
    rw [List.append_assoc] at hrest
    rw [Batch.momentsFrom, cursorBehind_cons]
    exact hrest

theorem Arrives.batches (h : t.Arrives ms cursor here) {bs : List Batch} {plan : Plan}
    (hlegal : ∀ b ∈ bs, ∀ c ∈ b, c.Legal) (hplan : List.Forall₂ Batch.Planned bs plan) :
    t.Arrives (ms ++ momentsOfBatches cursor bs)
      (cursorBehind cursor (momentsOfBatches cursor bs)) (plan.foldl followBatch here) := by
  induction hplan generalizing ms here cursor with
  | nil => simpa [momentsOfBatches, cursorBehind] using h
  | cons hsteps _ ih =>
    obtain ⟨hb, hbs⟩ := List.forall_mem_cons.1 hlegal
    have hrest := ih (h.steps h.lt_size h.path hb hsteps) hbs
    rw [List.append_assoc] at hrest
    rw [momentsOfBatches, cursorBehind_append]
    exact hrest

/-- A string that can be read leaves the cursor at the node it ends on. -/
theorem WellFormed.arrives_parseField (h : t.WellFormed) (hsize : 0 < t.size) {spec : Text}
    (hp : t.parseField spec = .ok here) :
    t.Arrives (momentsOfSpec spec) (cursorBehind [] (momentsOfSpec spec)) here := by
  obtain ⟨plan, hplan, rfl⟩ := parseField_eq_ok_iff.1 hp
  obtain ⟨bs, hbs, hsteps⟩ := Plan.ofSpec_eq_ok_iff.1 hplan
  have hlegal := (tokenize_eq_ok_iff.1 hbs).1.legal
  have hstart : t.Arrives [] [] (t, root) := ⟨.start h, hsize, h.path_root⟩
  rw [momentsOfSpec, hbs]
  exact hstart.batches hlegal hsteps

theorem WellFormed.walks_parseFields (h : t.WellFormed) (hsize : 0 < t.size) {specs : List Text}
    {u : Tree} (hp : t.parseFields specs = (u, none)) : t.Walks (moments specs) u := by
  induction specs generalizing t with
  | nil =>
    cases hp
    exact .start h
  | cons spec specs ih =>
    unfold Tree.parseFields at hp
    split at hp
    · rename_i t' id hspec
      have hsize' := Nat.lt_of_lt_of_le hsize (leadsTo_parseField hsize hspec).1.size_le
      have hwalks := (h.arrives_parseField hsize hspec).walks
      exact hwalks.trans (ih hwalks.wellFormed hsize' hp)
    · cases hp

end

/-- The tree means the moments so far, and the current node is where the cursor is. -/
structure Follows (ms : List Moment) (cursor : Path) (here : Tree × Nat) : Prop where
  means : here.1.Means ms
  lt_size : here.2 < here.1.size
  path : here.1.path here.2 = cursor

theorem Means.follows_parseField {t : Tree} {ms : List Moment} (h : t.Means ms) (hsize : 0 < t.size)
    {spec : Text} {here : Tree × Nat} (hp : t.parseField spec = .ok here) :
    Follows (ms ++ momentsOfSpec spec) (cursorBehind [] (momentsOfSpec spec)) here := by
  have ha := h.wellFormed.arrives_parseField hsize hp
  exact ⟨h.walks ha.walks, ha.lt_size, ha.path⟩

theorem Means.parseFields {t : Tree} {ms : List Moment} (h : t.Means ms) (hsize : 0 < t.size)
    {specs : List Text} {u : Tree} (hp : t.parseFields specs = (u, none)) :
    u.Means (ms ++ moments specs) :=
  h.walks (h.wellFormed.walks_parseFields hsize hp)

theorem means_empty : empty.Means [] := by
  have hzero {i : Nat} (hi : i < empty.size) : i = 0 := Nat.lt_one_iff.1 hi
  refine ⟨wellFormed_empty, fun i hi hlt => ?_, fun m hm => ?_, fun i j hi hij hj => ?_,
    fun i hi => ?_, fun i hi => ?_⟩
  · exact absurd (hzero hlt) (Nat.ne_of_gt hi)
  · cases hm
  · exact absurd (hzero hj) (Nat.ne_of_gt (Nat.lt_trans hi hij))
  · rw [hzero hi]
    rfl
  · rw [hzero hi]
    rfl

/-- Whether a string can be read does not depend on the tree, so strings that can be read
each for itself can be read one after another. -/
theorem exists_parseFields {specs : List Text}
    (h : ∀ spec ∈ specs, ∃ here, empty.parseField spec = .ok here) (t : Tree) :
    ∃ u, t.parseFields specs = (u, none) := by
  induction specs generalizing t with
  | nil => exact ⟨t, rfl⟩
  | cons spec specs ih =>
    obtain ⟨hspec, hspecs⟩ := List.forall_mem_cons.1 h
    obtain ⟨⟨t', id⟩, hp⟩ := exists_parseField hspec t
    obtain ⟨u, hu⟩ := ih hspecs t'
    refine ⟨u, ?_⟩
    rw [Tree.parseFields, hp]
    exact hu

/-- Children that were first reached at one moment stand on the way to the same cursor at
the same depth, so there is only one of them. -/
theorem Means.children_ordered {t : Tree} {ms : List Moment} (h : t.Means ms) (i : Nat) :
    (t.children i).Pairwise fun c d => firstReach ms (t.path c) < firstReach ms (t.path d) := by
  refine (h.wellFormed.children_lt i).imp_of_mem fun {c d} hc hd hlt => ?_
  have hw := h.wellFormed
  obtain ⟨hcpos, hcsize, s, hcpath⟩ := hw.child_path hc
  obtain ⟨hdpos, hdsize, s', hdpath⟩ := hw.child_path hd
  refine Nat.lt_of_le_of_ne (h.ordered c d hcpos hlt hdsize) fun he => ?_
  have hcm := firstReach_prefix (h.seen c hcpos hcsize)
  have hdm := firstReach_prefix (h.seen d hdpos hdsize)
  rw [← he] at hdm
  obtain ⟨m, hm, hcprefix⟩ := hcm
  obtain ⟨m', hm', hdprefix⟩ := hdm
  cases hm.symm.trans hm'
  have hlength : (t.path c).length = (t.path d).length := by simp [hcpath, hdpath]
  have hsame := List.IsPrefix.eq_of_length (List.prefix_of_prefix_length_le hcprefix hdprefix
    (Nat.le_of_eq hlength)) hlength
  exact Nat.ne_of_lt hlt (hw.path_inj hcsize hdsize hsame)

end Tree

/-- Strings that can be read build a tree with one node for each path on the way of the
cursor. Siblings stand in the order in which the cursor first reached them. Every node has
the alias that was last written at its path, and the filters that were written there: keys
in the order of their first write, each with the value of its last. -/
theorem parseFields_path_meaning {specs : List Text}
    (h : ∀ spec ∈ specs, ∃ here, Tree.empty.parseField spec = .ok here) :
    ∃ t, parseFields specs = .ok t ∧
      (∀ p, (∃ i, 0 < i ∧ i < t.size ∧ t.path i = p) ↔
        p ≠ [] ∧ ∃ m ∈ moments specs, p <+: m.cursor) ∧
      (∀ i j, i < t.size → j < t.size → t.path i = t.path j → i = j) ∧
      (∀ i, (t.children i).Pairwise fun c d =>
        firstReach (moments specs) (t.path c) < firstReach (moments specs) (t.path d)) ∧
      ∀ i, i < t.size →
        t.aliasName i = (aliasesAt (moments specs) (t.path i)).getLast? ∧
        Filters.keys (t.filters i) =
          ((filtersAt (moments specs) (t.path i)).map Prod.fst).eraseDups ∧
        ∀ e ∈ t.filters i,
          ((filtersAt (moments specs) (t.path i)).filter fun w => w.1 = e.1).getLast? = some e := by
  obtain ⟨t, ht⟩ := Tree.exists_parseFields h .empty
  have hm : t.Means (moments specs) := Tree.means_empty.parseFields (by simp) ht
  have hw := hm.wellFormed
  refine ⟨t, ?_, fun p => ?_, fun i j => hw.path_inj, hm.children_ordered, fun i hi => ⟨?_, ?_, ?_⟩⟩
  · rw [parseFields, ht]
  · constructor
    · intro hp
      obtain ⟨i, hi, hlt, rfl⟩ := hp
      exact ⟨hw.path_ne_nil hi hlt, hm.seen i hi hlt⟩
    · intro hp
      obtain ⟨i, hlt, hpath⟩ := (hm.seen_iff hp.1).1 hp.2
      refine ⟨i, Nat.pos_of_ne_zero ?_, hlt, hpath⟩
      intro hzero
      subst hzero
      exact hp.1 (hpath.symm.trans hw.path_root)
  · exact hm.aliasName i hi
  · rw [hm.filters i hi]
    exact Filters.keys_ofWrites _
  · rw [hm.filters i hi]
    exact fun e => Filters.last_of_mem_ofWrites

/-- A sibling behind an alias, several labels in a row, and paths that come again. -/
def pathRun : List Text :=
  ["u.a(k:1)(x.y as z)(l:2),b".toList, "u.a.x.y(l:3)(k:4)(x as w)".toList, "b,u".toList]

theorem parseFields_path_meaning_pathRun :
    (∀ spec ∈ pathRun, ∃ here, Tree.empty.parseField spec = .ok here) ∧
      ∃ t, parseFields pathRun = .ok t ∧
        ∃ i, 0 < i ∧ i < t.size ∧ t.path i = ["u".toList, "a".toList, "x".toList, "y".toList] ∧
          t.aliasName i = some "z".toList ∧
          Filters.keys (t.filters i) = ["l".toList, "k".toList] ∧
          ∀ value, ("l".toList, value) ∈ t.filters i → value = "3".toList := by
  have hspecs : ∀ spec ∈ pathRun, ∃ here, Tree.empty.parseField spec = .ok here := by
    have hok : ∀ spec ∈ pathRun, (Tree.empty.parseField spec).isOk := by decide +kernel
    intro spec hspec
    cases hp : Tree.empty.parseField spec with
    | error e => simpa [hp, Except.isOk, Except.toBool] using hok spec hspec
    | ok here => exact ⟨here, rfl⟩
  obtain ⟨t, ht, hpaths, -, -, hlabels⟩ := parseFields_path_meaning hspecs
  obtain ⟨i, hi, hlt, hpath⟩ :=
    (hpaths ["u".toList, "a".toList, "x".toList, "y".toList]).2 (by decide +kernel)
  obtain ⟨halias, hkeys, hvalues⟩ := hlabels i hlt
  rw [hpath] at halias hkeys hvalues
  refine ⟨hspecs, t, ht, i, hi, hlt, hpath, ?_, ?_, ?_⟩
  · rw [halias]
    decide +kernel
  · rw [hkeys]
    decide +kernel
  · intro value hvalue
    have hlast := hvalues _ hvalue
    have hfound : ((filtersAt (moments pathRun)
        ["u".toList, "a".toList, "x".toList, "y".toList]).filter fun w => w.1 = "l".toList).getLast? =
          some ("l".toList, "3".toList) := by
      decide +kernel
    exact (Prod.mk.inj (Option.some.inj (hlast.symm.trans hfound))).2

end QueryShorthand
