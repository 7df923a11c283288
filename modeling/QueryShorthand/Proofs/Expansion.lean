import QueryShorthand.Proofs.Addresses
import QueryShorthand.Proofs.Failures

/-! Commas and relative steps are a shorter way of writing. A string without aliases does what
its chunks do when each of them is put in on its own, with the absolute path of the field that
it moves to or labels. -/

namespace QueryShorthand
set_option autoImplicit false

def Chunk.isAlias (c : Chunk) : Bool :=
  match c.kind, Label.ofText c.text with
  | .label, .ok (.aliased _ _) => true
  | _, _ => false

def hasAlias (spec : Text) : Bool :=
  match tokenize spec with
  | .ok bs => bs.flatten.any Chunk.isAlias
  | .error _ => false

/-- The path of the field that a name moves to or that a label is about, and the label itself. -/
def Chunk.absolute (base here : Path) (c : Chunk) : Text :=
  ['.'].intercalate (c.moment base here).cursor ++ if c.kind = .label then c.written else []

def Batch.absoluteFrom (base : Path) : Path → Batch → List Text
  | _, [] => []
  | here, c :: cs => c.absolute base here :: absoluteFrom base (c.moment base here).cursor cs

def absoluteBatches (here : Path) : List Batch → List Text
  | [] => []
  | b :: bs =>
    b.absoluteFrom here here ++
      absoluteBatches (cursorBehind here (Batch.momentsFrom here here b)) bs

/-- One string for each chunk, none of them with a comma or a step from where another ended. -/
def expansion (spec : Text) : List Text :=
  match tokenize spec with
  | .ok bs => absoluteBatches [] bs
  | .error _ => []

/-! A label behind a string -/

theorem Batch.OpenedBy.concat {kind : ChunkKind} {b : Batch} (h : b.OpenedBy kind) {d : Chunk}
    (hd : d.kind = .sibling ∨ d.kind = .label) : Batch.OpenedBy kind (b ++ [d]) := by
  obtain ⟨c, cs, rfl, hc, hcs⟩ := h
  refine ⟨c, cs ++ [d], rfl, hc, List.forall_mem_append.2 ⟨hcs, ?_⟩⟩
  exact List.forall_mem_singleton.2 hd

theorem Grammatical.concat_label {bs : List Batch} {b : Batch} (h : Grammatical (bs ++ [b]))
    {c : Chunk} (hkind : c.kind = .label) (hlegal : c.Legal)
    (hposition : c.position = (Batch.written (bs ++ [b]).flatten).length) :
    Grammatical (bs ++ [b ++ [c]]) := by
  obtain ⟨⟨b', others, he, hopened, hothers⟩, hall, hlaid⟩ := grammatical_iff.1 h
  obtain ⟨hbs, hb⟩ := List.forall_mem_append.1 hall
  rw [List.forall_mem_singleton] at hb
  have hflat : (bs ++ [b ++ [c]]).flatten = (bs ++ [b]).flatten ++ [c] := by simp
  refine grammatical_iff.2 ⟨?_, ?_, ?_⟩
  · cases bs with
    | nil =>
      cases he
      exact ⟨b ++ [c], [], rfl, hopened.concat (.inr hkind), by simp⟩
    | cons b'' bs =>
      cases he
      obtain ⟨hbefore, hlast⟩ := List.forall_mem_append.1 hothers
      rw [List.forall_mem_singleton] at hlast
      refine ⟨b', bs ++ [b ++ [c]], rfl, hopened, List.forall_mem_append.2 ⟨hbefore, ?_⟩⟩
      exact List.forall_mem_singleton.2 (hlast.concat (.inr hkind))
  · refine List.forall_mem_append.2 ⟨hbs, List.forall_mem_singleton.2 ?_⟩
    exact List.forall_mem_append.2 ⟨hb, List.forall_mem_singleton.2 hlegal⟩
  · rw [hflat, laid_append, Nat.zero_add]
    exact ⟨hlaid, hposition, trivial⟩

theorem forall₂_concat_left_iff {α β : Type} {R : α → β → Prop} {xs : List α} {x : α}
    {ys : List β} :
    List.Forall₂ R (xs ++ [x]) ys ↔ ∃ ys' y, ys = ys' ++ [y] ∧ List.Forall₂ R xs ys' ∧ R x y := by
  constructor
  · intro h
    induction xs generalizing ys with
    | nil =>
      obtain ⟨y, ys', hy, hnil, rfl⟩ := List.forall₂_cons_left_iff.1 h
      cases hnil
      exact ⟨[], y, rfl, .nil, hy⟩
    | cons x' xs ih =>
      obtain ⟨y', ys', hy', hrest, rfl⟩ := List.forall₂_cons_left_iff.1 h
      obtain ⟨before, y, rfl, hbefore, hy⟩ := ih hrest
      exact ⟨y' :: before, y, rfl, .cons hy' hbefore, hy⟩
  · intro h
    obtain ⟨ys', y, rfl, hxs, hx⟩ := h
    exact List.rel_append hxs (.cons hx .nil)

/-- A label behind a string that can be read is read with the last batch of it. -/
theorem Plan.ofSpec_label {spec : Text} {plan : Plan} (h : Plan.ofSpec spec = .ok plan)
    {c : Chunk} (hkind : c.kind = .label) (hlegal : c.Legal) {label : Label}
    (hlabel : Label.ofText c.text = .ok label) :
    ∃ before steps, plan = before ++ [steps] ∧
      Plan.ofSpec (spec ++ c.written) = .ok (before ++ [steps ++ [.mark label]]) := by
  obtain ⟨bs, hbs, hplan⟩ := ofSpec_eq_ok_iff.1 h
  obtain ⟨hgrammar, rfl⟩ := tokenize_eq_ok_iff.1 hbs
  rcases List.eq_nil_or_concat' bs with rfl | ⟨bs, b, rfl⟩
  · obtain ⟨b, others, he, -⟩ := hgrammar.opened
    cases he
  obtain ⟨before, steps, rfl, hbefore, hsteps⟩ := forall₂_concat_left_iff.1 hplan
  -- The label stands at the end of the string, wherever `c` itself comes from.
  let d : Chunk := ⟨.label, c.text, (Batch.written (bs ++ [b]).flatten).length⟩
  have hstep : d.step = .ok (.mark label) := by simp [d, Chunk.step, hlabel]
  have hd : d.Legal := (Chunk.legal_iff_of_label rfl).2 ((Chunk.legal_iff_of_label hkind).1 hlegal)
  refine ⟨before, steps, rfl, ofSpec_eq_ok_iff.2 ⟨bs ++ [b ++ [d]], ?_, ?_⟩⟩
  · refine tokenize_eq_ok_iff.2 ⟨hgrammar.concat_label rfl hd rfl, ?_⟩
    simp [d, Chunk.written, hkind]
  · exact forall₂_concat_left_iff.2 ⟨before, _, rfl, hbefore,
      forall₂_concat_left_iff.2 ⟨steps, _, rfl, hsteps, hstep⟩⟩

namespace Tree

theorem follow_mark (base base' : Nat) (here : Tree × Nat) (label : Label) :
    follow base here (.mark label) = follow base' here (.mark label) := by
  cases label <;> rfl

theorem parseField_label {t : Tree} {spec : Text} {here : Tree × Nat}
    (h : t.parseField spec = .ok here) {c : Chunk} (hkind : c.kind = .label) (hlegal : c.Legal)
    {label : Label} (hlabel : Label.ofText c.text = .ok label) (base : Nat) :
    t.parseField (spec ++ c.written) = .ok (follow base here (.mark label)) := by
  obtain ⟨plan, hplan, rfl⟩ := parseField_eq_ok_iff.1 h
  obtain ⟨before, steps, rfl, hlonger⟩ := Plan.ofSpec_label hplan hkind hlegal hlabel
  refine parseField_eq_ok_iff.2 ⟨_, hlonger, ?_⟩
  simp only [apply, List.foldl_append, List.foldl_cons, List.foldl_nil, followBatch]
  exact follow_mark _ base _ label

end Tree

/-! One chunk -/

/-- Names that stand for themselves in a string. -/
abbrev Spellable (p : Path) : Prop := ∀ s ∈ p, s ≠ [] ∧ ∀ c ∈ s, isNameChar c

namespace Chunk
variable {c : Chunk} {base here : Path}

theorem names_of_label (hkind : c.kind = .label) (hfree : c.isAlias = false) : c.names = [] := by
  unfold names
  rw [hkind]
  dsimp only
  split
  · rename_i target name hlabel
    simp [isAlias, hkind, hlabel] at hfree
  · rfl

theorem Legal.spellable_names (h : c.Legal) (hfree : c.isAlias = false) : Spellable c.names := by
  by_cases hkind : c.kind = .label
  · rw [names_of_label hkind hfree]
    exact fun s hs => absurd hs List.not_mem_nil
  · rw [names_of_name hkind]
    exact List.forall_mem_singleton.2 ((legal_iff_of_name hkind).1 h)

theorem absolute_of_name (hkind : c.kind ≠ .label) :
    c.absolute base here =
      ['.'].intercalate ((if c.kind = .sibling then base else here) ++ [c.text]) := by
  rw [absolute, if_neg hkind, List.append_nil, moment_of_name hkind]

theorem absolute_of_label (hkind : c.kind = .label) (hfree : c.isAlias = false) :
    c.absolute base here = ['.'].intercalate here ++ c.written := by
  simp [absolute, moment_cursor, names_of_label hkind hfree, hkind]

end Chunk

namespace Tree

/-- Strings are put in one after another, and the last of them ends on the tree and the node
of `there`. -/
inductive Feeds (here : Tree × Nat) : List Text → Tree × Nat → Prop where
  | start : Feeds here [] here
  | next {specs : List Text} {spec : Text} {mid there : Tree × Nat} (h : Feeds here specs mid)
      (hspec : mid.1.parseField spec = .ok there) : Feeds here (specs ++ [spec]) there

section
variable {here mid there : Tree × Nat} {specs specs' : List Text} {spec : Text}

theorem Feeds.cons (hspec : here.1.parseField spec = .ok mid) (h : Feeds mid specs there) :
    Feeds here (spec :: specs) there := by
  induction h with
  | start => exact .next .start hspec
  | next _ hlast ih => exact .next ih hlast

theorem Feeds.trans (h : Feeds here specs mid) (h' : Feeds mid specs' there) :
    Feeds here (specs ++ specs') there := by
  induction h' with
  | start => rwa [List.append_nil]
  | next _ hlast ih =>
    rw [← List.append_assoc]
    exact .next ih hlast

theorem Feeds.readable (h : Feeds here specs there) :
    ∀ spec ∈ specs, ∃ goal, empty.parseField spec = .ok goal := by
  induction h with
  | start => simp
  | next _ hlast ih =>
    refine List.forall_mem_append.2 ⟨ih, List.forall_mem_singleton.2 ?_⟩
    exact exists_parseField ⟨_, hlast⟩ empty

theorem Feeds.applied (h : Feeds here specs there) : here.1.applied specs = there.1 := by
  induction h with
  | start => rfl
  | next _ hlast ih =>
    rw [applied_append, ih, applied_cons hlast]
    rfl

theorem Feeds.last (h : Feeds here specs there) (hne : specs ≠ []) :
    ∃ before last, specs = before ++ [last] ∧
      (here.1.applied before).parseField last = .ok there := by
  cases h with
  | start => exact absurd rfl hne
  | next h hlast => exact ⟨_, _, rfl, h.applied ▸ hlast⟩

end

section
variable {t : Tree} {ms : List Moment} {cursor start : Path} {here : Tree × Nat} {base : Nat}

theorem Arrives.parseField_absolute (h : t.Arrives ms cursor here) (hbase : base < here.1.size)
    (hstart : here.1.path base = start) {c : Chunk} {step : Step} (hlegal : c.Legal)
    (hstep : c.step = .ok step) (hfree : c.isAlias = false) (hs : Spellable start)
    (hc : Spellable cursor) (hopened : cursor = [] → c.kind ≠ .label) :
    here.1.parseField (c.absolute start cursor) = .ok (Tree.follow base here step) := by
  have hw := h.walks.wellFormed
  by_cases hkind : c.kind = .label
  · obtain ⟨label, hlabel, rfl⟩ := Chunk.exists_label_of_step hkind hstep
    have hne : here.1.path here.2 ≠ [] := fun he => hopened (h.path.symm.trans he) hkind
    -- The names before the label lead back to the current field and add nothing.
    have hback := hw.parseField_path (hw.pos_of_path_ne_nil hne) h.lt_size (h.path.symm ▸ hc)
    rw [Chunk.absolute_of_label hkind hfree, ← h.path]
    exact parseField_label hback hkind hlegal hlabel base
  · have hlt : (if c.kind = .sibling then base else here.2) < here.1.size := by
      split
      · exact hbase
      · exact h.lt_size
    have hpath : here.1.path (if c.kind = .sibling then base else here.2) =
        if c.kind = .sibling then start else cursor := by
      split
      · exact hstart
      · exact h.path
    rw [Chunk.absolute_of_name hkind, Chunk.follow_of_name hkind hstep, ← hpath]
    refine hw.parseField_path_concat hlt (List.forall_mem_append.2 ⟨?_, ?_⟩)
    · rw [hpath]
      split
      · exact hs
      · exact hc
    · exact List.forall_mem_singleton.2 ((Chunk.legal_iff_of_name hkind).1 hlegal)

theorem Arrives.feeds_batch (h : t.Arrives ms cursor here) (hbase : base < here.1.size)
    (hstart : here.1.path base = start) {b : Batch} {steps : List Step}
    (hlegal : ∀ c ∈ b, c.Legal) (hfree : ∀ c ∈ b, c.isAlias = false) (hsteps : b.Planned steps)
    (hs : Spellable start) (hc : Spellable cursor)
    (hopened : cursor = [] → ∀ c ∈ b.head?, c.kind ≠ .label) :
    Feeds here (b.absoluteFrom start cursor) (steps.foldl (Tree.follow base) here) := by
  induction hsteps generalizing ms here cursor with
  | nil => exact .start
  | @cons c step b steps hstep _ ih =>
    obtain ⟨hlegalc, hlegals⟩ := List.forall_mem_cons.1 hlegal
    obtain ⟨hfreec, hfrees⟩ := List.forall_mem_cons.1 hfree
    have hopen : cursor = [] → c.kind ≠ .label := fun he => hopened he c rfl
    obtain ⟨hnext, hbase', hstart'⟩ := h.follow hbase hstart hlegalc hstep
    have hspelt : Spellable (c.moment start cursor).cursor := by
      rw [Chunk.moment_cursor]
      refine List.forall_mem_append.2 ⟨?_, hlegalc.spellable_names hfreec⟩
      split
      · exact hs
      · exact hc
    -- Only the opening chunk of a string can find the cursor at the root.
    have hrest := ih hnext hbase' hstart' hlegals hfrees hspelt fun he =>
      absurd he (Chunk.cursor_ne_nil hopen)
    exact .cons (h.parseField_absolute hbase hstart hlegalc hstep hfreec hs hc hopen) hrest

theorem Arrives.feeds_batches (h : t.Arrives ms cursor here) {bs : List Batch} {plan : Plan}
    (hlegal : ∀ b ∈ bs, ∀ c ∈ b, c.Legal) (hfree : ∀ b ∈ bs, ∀ c ∈ b, c.isAlias = false)
    (hplan : List.Forall₂ Batch.Planned bs plan) (hc : Spellable cursor)
    (hopened : ∀ b ∈ bs, ∀ c ∈ b.head?, c.kind ≠ .label) :
    Feeds here (absoluteBatches cursor bs) (plan.foldl followBatch here) := by
  induction hplan generalizing ms here cursor with
  | nil => exact .start
  | @cons b steps bs plan hsteps _ ih =>
    obtain ⟨hlegalb, hlegals⟩ := List.forall_mem_cons.1 hlegal
    obtain ⟨hfreeb, hfrees⟩ := List.forall_mem_cons.1 hfree
    obtain ⟨hopenedb, hopeneds⟩ := List.forall_mem_cons.1 hopened
    have hnext := h.steps h.lt_size h.path hlegalb hsteps
    have hspelt := forall_mem_cursorBehind hc (forall_mem_cursor_of_batch hc hc fun c hmem =>
      (hlegalb c hmem).spellable_names (hfreeb c hmem))
    have hrest := ih hnext hlegals hfrees hspelt hopeneds
    exact (h.feeds_batch h.lt_size h.path hlegalb hfreeb hsteps hc hc fun _ => hopenedb).trans hrest

end

end Tree

theorem absoluteBatches_ne_nil {bs : List Batch} (h : Grammatical bs) (here : Path) :
    absoluteBatches here bs ≠ [] := by
  obtain ⟨b, others, rfl, ⟨c, cs, rfl, -⟩, -⟩ := h.opened
  simp [absoluteBatches, Batch.absoluteFrom]

theorem isAlias_of_hasAlias {spec : Text} {bs : List Batch} (h : hasAlias spec = false)
    (hbs : tokenize spec = .ok bs) : ∀ b ∈ bs, ∀ c ∈ b, c.isAlias = false := by
  intro b hb c hc
  rw [hasAlias, hbs] at h
  exact Bool.eq_false_iff.2 (List.any_eq_false.1 h c (List.mem_flatten.2 ⟨b, hb, hc⟩))

/-- A string without aliases does the same as its expansion: all strings of the expansion can
be read, putting them in gives the same tree, and the last of them ends on the same node. -/
theorem Tree.Reachable.parseField_expansion {t : Tree} (h : Reachable t) {spec : Text}
    {here : Tree × Nat} (hp : t.parseField spec = .ok here) (hfree : hasAlias spec = false) :
    (∀ s ∈ expansion spec, ∃ goal, Tree.empty.parseField s = .ok goal) ∧
      t.parseFields (expansion spec) = (here.1, none) ∧
      ∃ before last, expansion spec = before ++ [last] ∧
        (t.applied before).parseField last = .ok here := by
  obtain ⟨plan, hplan, rfl⟩ := parseField_eq_ok_iff.1 hp
  obtain ⟨bs, hbs, hsteps⟩ := Plan.ofSpec_eq_ok_iff.1 hplan
  have hgrammar := (tokenize_eq_ok_iff.1 hbs).1
  have hstart : t.Arrives [] [] (t, root) :=
    ⟨.start h.wellFormed, h.root_lt, h.wellFormed.path_root⟩
  have hfeeds : Feeds (t, root) (expansion spec) (t.apply plan) := by
    rw [expansion, hbs]
    exact hstart.feeds_batches hgrammar.legal (isAlias_of_hasAlias hfree hbs) hsteps
      (fun s hs => absurd hs List.not_mem_nil) hgrammar.head_ne_label
  have hne : expansion spec ≠ [] := by
    rw [expansion, hbs]
    exact absoluteBatches_ne_nil hgrammar []
  refine ⟨hfeeds.readable, ?_, hfeeds.last hne⟩
  rw [t.parseFields_of_readable hfeeds.readable]
  exact congrArg (·, none) hfeeds.applied

/-- Siblings, labels on them, and steps that go on from the last sibling. -/
def compact : Text := "u.a(k:1),b(l:2).c,d".toList

/-- The fields `b` and `d` below `u` are there already, and `b` has a filter. -/
def stocked : Tree := Tree.empty.after (.parseFields ["u.b(l:0),d".toList])

theorem Tree.Reachable.parseField_expansion_compact :
    Reachable stocked ∧ hasAlias compact = false ∧
      stocked.parseField compact = .ok (stocked.after (.parseField compact), 6) ∧
      (∀ s ∈ expansion compact, ∃ goal, Tree.empty.parseField s = .ok goal) ∧
      stocked.parseFields (expansion compact) = (stocked.after (.parseField compact), none) ∧
      ∃ before last, expansion compact = before ++ [last] ∧
        (stocked.applied before).parseField last =
          .ok (stocked.after (.parseField compact), 6) := by
  have h : Reachable stocked := .after .empty _ trivial
  have hfree : hasAlias compact = false := by decide +kernel
  have hp : stocked.parseField compact = .ok (stocked.after (.parseField compact), 6) := by
    decide +kernel
  exact ⟨h, hfree, hp, h.parseField_expansion hp hfree⟩

example : expansion compact = ["u".toList, "u.a".toList, "u.a(k:1)".toList, "u.b".toList,
    "u.b(l:2)".toList, "u.b.c".toList, "u.b.d".toList] := by
  decide +kernel

end QueryShorthand
