import QueryShorthand.Access
import QueryShorthand.Proofs.Printing

/-! Which work on a tree stops at an index. In a tree that calls have led to, every index that a
node holds has a node of its own, so only an index handed in from outside can stop a call. It
stops a call before anything is written. -/

namespace QueryShorthand
set_option autoImplicit false

namespace Access
variable {α β : Type}

/-- The work comes to an end, with a tree and a result. -/
def Gives (x : Access α) (t : Tree) (p : Tree × α) : Prop := x t = some (.ok p.2, p.1)

/-- The work stops, and the tree is as it was. -/
def Fails (x : Access α) (t : Tree) (e : OutOfRange) : Prop := x t = some (.error e, t)

theorem Gives.bind {x : Access α} {f : α → Access β} {t : Tree} {p : Tree × α} {q : Tree × β}
    (hx : Gives x t p) (hf : Gives (f p.2) p.1 q) : Gives (x >>= f) t q := by
  change (x t).bind _ = _
  rw [hx]
  exact hf

theorem Fails.bind {x : Access α} {t : Tree} {e : OutOfRange} (hx : Fails x t e)
    (f : α → Access β) : Fails (x >>= f) t e := by
  change (x t).bind _ = _
  rw [hx]
  rfl

theorem node_eq (id : Nat) (t : Tree) : node id t = some (t.nodeAt id, t) := by
  change (MonadExcept.ofExcept (t.nodeAt id) : Access Node) t = _
  cases t.nodeAt id <;> rfl

theorem gives_node {t : Tree} {id : Nat} {n : Node} (hn : t.node? id = some n) :
    Gives (node id) t (t, n) := by
  rw [Gives, node_eq, Tree.nodeAt, hn]

theorem fails_node {t : Tree} {id : Nat} (hid : t.size ≤ id) :
    Fails (node id) t ⟨t.size, id⟩ := by
  rw [Fails, node_eq, Tree.nodeAt_eq_error_iff.2 ⟨hid, rfl⟩]

/-! Going through a list. -/

theorem gives_findM? {t : Tree} {p : Nat → Access Bool} {q : Nat → Bool} {cs : List Nat}
    (h : ∀ c ∈ cs, Gives (p c) t (t, q c)) : Gives (cs.findM? p) t (t, cs.find? q) := by
  induction cs with
  | nil => rfl
  | cons c cs ih =>
    obtain ⟨hc, hcs⟩ := List.forall_mem_cons.1 h
    refine hc.bind ?_
    rw [List.find?_cons]
    cases q c with
    | true => rfl
    | false => exact ih hcs

theorem gives_mapM {t : Tree} {p : Nat → Access α} {f : Nat → α} {cs : List Nat}
    (h : ∀ c ∈ cs, Gives (p c) t (t, f c)) : Gives (cs.mapM p) t (t, cs.map f) := by
  induction cs with
  | nil => rfl
  | cons c cs ih =>
    obtain ⟨hc, hcs⟩ := List.forall_mem_cons.1 h
    rw [List.mapM_cons]
    exact hc.bind ((ih hcs).bind rfl)

/-- Each step starts from the tree and the index at which the step before it has ended. -/
theorem gives_foldlM {f : Nat → α → Access Nat} {g : Tree × Nat → α → Tree × Nat}
    {I : Tree × Nat → Prop} {as : List α} (here : Tree × Nat)
    (h : ∀ a ∈ as, ∀ here, I here → Gives (f here.2 a) here.1 (g here a) ∧ I (g here a))
    (hhere : I here) : Gives (as.foldlM f here.2) here.1 (as.foldl g here) := by
  induction as generalizing here with
  | nil => rfl
  | cons a as ih =>
    obtain ⟨ha, has⟩ := List.forall_mem_cons.1 h
    obtain ⟨hstep, hthere⟩ := ha here hhere
    rw [List.foldlM_cons]
    exact hstep.bind (ih _ has hthere)

/-! Indices that have a node. -/

theorem gives_edit {t : Tree} {id : Nat} (hid : id < t.size) (f : Node → Node) :
    Gives (edit id f) t (t.modify id f, ()) := by
  obtain ⟨n, hn⟩ := Tree.exists_node? hid
  exact (gives_node hn).bind rfl

theorem gives_push {t : Tree} {id : Nat} (hid : id < t.size) (name : Text) :
    Gives (push id name) t (t.push id name, t.size) := by
  have hlt : id < (Tree.mk (t.nodes.push (.field name id))).size := by
    rw [Tree.size, Array.size_push]
    exact Nat.lt_succ_of_lt hid
  exact (gives_edit hlt (Node.addChild t.size)).bind rfl

/-- Without a node for its parent the new field is left in the array. -/
example : push 7 "a".toList .empty = some (.error ⟨2, 7⟩, ⟨#[.root, .field "a".toList 7]⟩) := rfl

section
variable {t : Tree} (h : t.WellFormed)
include h

theorem gives_child {id : Nat} (hid : id < t.size) (name : Text) :
    Gives (child id name) t (t, t.child id name) := by
  obtain ⟨n, hn⟩ := Tree.exists_node? hid
  refine (gives_node hn).bind ?_
  rw [Tree.child, Tree.children_of_node? hn]
  refine gives_findM? fun c hc => ?_
  obtain ⟨m, hm⟩ := Tree.exists_node? (h.children_lt_size hn c hc).2
  rw [Tree.name_of_node? hm]
  exact (gives_node hm).bind rfl

/-- A child without a node stops a call that is made with an index of the tree. -/
example : child 0 "a".toList ⟨#[Node.root.addChild 5]⟩ =
    some (.error ⟨1, 5⟩, ⟨#[Node.root.addChild 5]⟩) := rfl

theorem gives_lookup {id : Nat} (hid : id < t.size) (path : Text) :
    Gives (lookup id path) t (t, t.lookup id path) := by
  unfold lookup Tree.lookup
  generalize pieces '.' path = names
  induction names generalizing id with
  | nil => rfl
  | cons name names ih =>
    rw [List.foldlM_cons, List.foldlM_cons]
    refine (gives_child h hid name).bind ?_
    cases hc : t.child id name with
    | none => rfl
    | some c => exact ih (Tree.lt_size_of_name (Tree.child_eq_some hc).2)

theorem gives_enter {id : Nat} (hid : id < t.size) (name : Text) :
    Gives (enter id name) t (t.enter id name) := by
  refine (gives_child h hid name).bind ?_
  rw [Tree.enter]
  cases t.child id name with
  | none => exact gives_push hid name
  | some c => rfl

theorem gives_resolve {id : Nat} (hid : id < t.size) (path : Text) :
    Gives (resolve id path) t (t.resolve id path) := by
  refine gives_foldlM (t, id)
    (I := fun here => here.1.WellFormed ∧ here.2 < here.1.size)
    (fun name hname here hhere => ?_) ⟨h, hid⟩
  obtain ⟨hw, hlt⟩ := hhere
  have hstep := Tree.leadsTo_enter hlt (not_mem_of_mem_pieces hname)
  exact ⟨gives_enter hw hlt name, hw.edits hstep.1, hstep.2⟩

theorem gives_follow {base id : Nat} (hbase : base < t.size) (hid : id < t.size) (step : Step) :
    Gives (follow base id step) t (Tree.follow base (t, id) step) := by
  cases step with
  | descend name => exact gives_resolve h hid name
  | sibling name => exact gives_resolve h hbase name
  | mark label =>
    cases label with
    | filter key value => exact (gives_edit hid _).bind rfl
    | aliased target name =>
      have hlt := (Tree.leadsTo_resolve hid target).2
      exact (gives_resolve h hid target).bind ((gives_edit hlt _).bind rfl)

theorem gives_followBatch {id : Nat} (hid : id < t.size) (steps : List Step) :
    Gives (followBatch id steps) t (Tree.followBatch (t, id) steps) := by
  -- Siblings go back to where the batch began, so that index has to stay in range as well.
  refine gives_foldlM (t, id)
    (I := fun here => here.1.WellFormed ∧ id < here.1.size ∧ here.2 < here.1.size)
    (fun step _ here hhere => ?_) ⟨h, hid, hid⟩
  obtain ⟨hw, hbase, hlt⟩ := hhere
  have hstep := Tree.leadsTo_follow hbase hlt step
  exact ⟨gives_follow hw hbase hlt step, hw.edits hstep.1,
    Nat.lt_of_lt_of_le hbase hstep.1.size_le, hstep.2⟩

theorem gives_apply (hroot : Tree.root < t.size) (plan : Plan) :
    Gives (apply plan) t (t.apply plan) := by
  refine gives_foldlM (t, Tree.root)
    (I := fun here => here.1.WellFormed ∧ here.2 < here.1.size)
    (fun steps _ here hhere => ?_) ⟨h, hroot⟩
  obtain ⟨hw, hlt⟩ := hhere
  have hbatch := Tree.leadsTo_followBatch hlt steps
  exact ⟨gives_followBatch hw hlt steps, hw.edits hbatch.1, hbatch.2⟩

theorem gives_parseField (hroot : Tree.root < t.size) (spec : Text) :
    Gives (parseField spec) t (t.after (.parseField spec), (t.parseField spec).map Prod.snd) := by
  unfold parseField
  rw [Tree.after, Tree.parseField]
  cases Plan.ofSpec spec with
  | error e => rfl
  | ok plan => exact (gives_apply h hroot plan).bind rfl

/-- A child is younger than its parent, so that fewer nodes are left below it. -/
theorem gives_printWithin {id depth : Nat} (hid : id < t.size) (hdepth : t.size ≤ id + depth)
    (sep : Text) : Gives (printWithin sep depth id) t (t, t.printFrom id sep) := by
  induction depth generalizing id with
  | zero => exact absurd hdepth (Nat.not_le_of_lt hid)
  | succ depth ih =>
    obtain ⟨n, hn⟩ := Tree.exists_node? hid
    have hparts : Gives (n.children.mapM (printWithin sep depth)) t
        (t, n.children.map (t.printFrom · sep)) := by
      refine gives_mapM fun c hc => ?_
      obtain ⟨hlt, hsize⟩ := h.children_lt_size hn c hc
      exact ih hsize (by omega)
    rw [h.printFrom_eq hn]
    exact (gives_node hn).bind (hparts.bind rfl)

theorem gives_printFrom {id : Nat} (hid : id < t.size) (sep : Text) :
    Gives (printFrom sep id) t (t, t.printFrom id sep) :=
  gives_printWithin h hid (by omega) sep

end

theorem gives_parseFields {t : Tree} (h : t.WellFormed) (hroot : Tree.root < t.size)
    (specs : List Text) : Gives (parseFields specs) t (t.parseFields specs) := by
  induction specs generalizing t with
  | nil => rfl
  | cons spec specs ih =>
    refine (gives_parseField h hroot spec).bind ?_
    rw [Tree.after, Tree.parseFields]
    cases hp : t.parseField spec with
    | error e => rfl
    | ok there =>
      have hthere := (Tree.leadsTo_parseField hroot hp).1
      exact ih (h.edits hthere) (Nat.lt_of_lt_of_le hroot hthere.size_le)

/-! Indices that have none. A path has a first name, so every call reads the node it was given
before anything else. -/

section
variable {t : Tree} {id : Nat} (hid : t.size ≤ id)
include hid

theorem fails_child (name : Text) : Fails (child id name) t ⟨t.size, id⟩ :=
  (fails_node hid).bind _

theorem fails_edit (f : Node → Node) : Fails (edit id f) t ⟨t.size, id⟩ :=
  (fails_node hid).bind _

theorem fails_lookup (path : Text) : Fails (lookup id path) t ⟨t.size, id⟩ := by
  obtain ⟨name, names, hnames⟩ := List.exists_cons_of_ne_nil (pieces_ne_nil '.' path)
  rw [lookup, hnames, List.foldlM_cons]
  exact (fails_child hid name).bind _

theorem fails_resolve (path : Text) : Fails (resolve id path) t ⟨t.size, id⟩ := by
  obtain ⟨name, names, hnames⟩ := List.exists_cons_of_ne_nil (pieces_ne_nil '.' path)
  rw [resolve, hnames, List.foldlM_cons]
  exact ((fails_child hid name).bind _).bind _

theorem fails_printFrom (sep : Text) : Fails (printFrom sep id) t ⟨t.size, id⟩ :=
  (fails_node hid).bind _

end

end Access

open Access

namespace Operation

/-- The call as it is made, with whatever index. -/
def access : Operation → Access Unit
  | .resolve id path => do let _ ← Access.resolve id path
  | .setFilter id key value => Access.setFilter id key value
  | .setAlias id name => Access.setAlias id name
  | .parseField spec => do let _ ← Access.parseField spec
  | .parseFields specs => do let _ ← Access.parseFields specs

theorem gives_access {t : Tree} (h : t.WellFormed) (hroot : Tree.root < t.size) {op : Operation}
    (hop : op.Valid t) : Gives op.access t (t.after op, ()) := by
  cases op with
  | resolve id path => exact (gives_resolve h hop path).bind rfl
  | setFilter id key value => exact gives_edit hop _
  | setAlias id name => exact gives_edit hop _
  | parseField spec => exact (gives_parseField h hroot spec).bind rfl
  | parseFields specs => exact (gives_parseFields h hroot specs).bind rfl

theorem fails_access {t : Tree} {op : Operation} (hop : ¬ op.Valid t) :
    ∃ e, Fails op.access t e := by
  cases op with
  | resolve id path => exact ⟨_, (fails_resolve (Nat.le_of_not_lt hop) path).bind _⟩
  | setFilter id key value => exact ⟨_, fails_edit (Nat.le_of_not_lt hop) _⟩
  | setAlias id name => exact ⟨_, fails_edit (Nat.le_of_not_lt hop) _⟩
  | parseField spec => exact absurd trivial hop
  | parseFields specs => exact absurd trivial hop

end Operation

namespace Tree

/-- A tree at hand and the copy of it that was saved last. Calls are made with any index, also
with one that only a tree given up for the copy had, and the tree at hand is then what the call
has left, be it that it has stopped. -/
inductive Session : Tree → Tree → Prop where
  | empty : Session .empty .empty
  | call {t saved u : Tree} {r : Except OutOfRange Unit} (h : Session t saved) (op : Operation)
      (hop : op.access t = some (r, u)) : Session u saved
  | save {t saved : Tree} (h : Session t saved) : Session t t
  | restore {t saved : Tree} (h : Session t saved) : Session saved saved

theorem Session.reachable {t saved : Tree} (h : Session t saved) : Reachable t ∧ Reachable saved := by
  induction h with
  | empty => exact ⟨.empty, .empty⟩
  | @call t saved u r _ op hop ih =>
    refine ⟨?_, ih.2⟩
    rcases Classical.em (op.Valid t) with hvalid | hvalid
    · cases (op.gives_access ih.1.wellFormed ih.1.root_lt hvalid).symm.trans hop
      exact ih.1.after op hvalid
    · -- A wrong index has stopped the call before it has written anything.
      obtain ⟨e, hfails⟩ := Operation.fails_access hvalid
      cases hfails.symm.trans hop
      exact ih.1
  | save _ ih => exact ⟨ih.1, ih.1⟩
  | restore _ ih => exact ⟨ih.2, ih.2⟩

theorem Reachable.session {t : Tree} (h : Reachable t) : Session t .empty := by
  induction h with
  | empty => exact .empty
  | after h op hop ih => exact ih.call op (op.gives_access h.wellFormed h.root_lt hop)

/-- A wrong index leads to no tree of its own. -/
theorem reachable_iff_session {t : Tree} : Reachable t ↔ ∃ saved, Session t saved :=
  ⟨fun h => ⟨.empty, h.session⟩, fun ⟨_, h⟩ => h.reachable.1⟩

/-- A call stops for an index that has no node and for no other. It says how many nodes there
are and which was asked for, and the tree is as it was. For every other index it ends as stated. -/
structure FailsOutside {α : Type} (t : Tree) (call : Nat → Access α) (outcome : Nat → Tree × α) :
    Prop where
  fails_iff : ∀ id e u, call id t = some (.error e, u) ↔ t.size ≤ id ∧ e = ⟨t.size, id⟩ ∧ u = t
  gives : ∀ id, id < t.size → Gives (call id) t (outcome id)

theorem failsOutside_of {α : Type} {t : Tree} {call : Nat → Access α} {outcome : Nat → Tree × α}
    (hgives : ∀ {id}, id < t.size → Gives (call id) t (outcome id))
    (hfails : ∀ {id}, t.size ≤ id → Fails (call id) t ⟨t.size, id⟩) :
    t.FailsOutside call outcome := by
  refine ⟨fun id e u => ⟨fun he => ?_, ?_⟩, fun id hid => hgives hid⟩
  · rcases Nat.lt_or_ge id t.size with hid | hid
    · cases (hgives hid).symm.trans he
    · cases (hfails hid).symm.trans he
      exact ⟨hid, rfl, rfl⟩
  · rintro ⟨hid, rfl, rfl⟩
    exact hfails hid

/-- Whatever calls have led to a tree, be it also by going back to a copy, a call with an index
stops exactly when the tree has no node there; indices that are read off nodes stop nothing.
Strings can be put into the tree, and it can be printed, without any call that stops. -/
theorem Session.failsOutside {t saved : Tree} (h : Session t saved) :
    t.FailsOutside Access.node (fun id => (t, (t.node? id).getD .root)) ∧
      t.FailsOutside Access.parent (fun id => (t, t.parent id)) ∧
      (∀ name, t.FailsOutside (Access.child · name) fun id => (t, t.child id name)) ∧
      (∀ path, t.FailsOutside (Access.lookup · path) fun id => (t, t.lookup id path)) ∧
      (∀ path, t.FailsOutside (Access.resolve · path) (t.resolve · path)) ∧
      (∀ key value, t.FailsOutside (Access.setFilter · key value) fun id =>
        (t.setFilter id key value, ())) ∧
      (∀ name, t.FailsOutside (Access.setAlias · name) fun id => (t.setAlias id name, ())) ∧
      (∀ sep, t.FailsOutside (Access.printFrom sep) fun id => (t, t.printFrom id sep)) ∧
      (∀ spec, Gives (Access.parseField spec) t
        (t.after (.parseField spec), (t.parseField spec).map Prod.snd)) ∧
      (∀ specs, Gives (Access.parseFields specs) t (t.parseFields specs)) ∧
      ∀ sep, Gives (Access.print sep) t (t, t.print sep) := by
  have hreachable := reachable_iff_session.2 ⟨saved, h⟩
  have hw := hreachable.wellFormed
  have hroot := hreachable.root_lt
  have hnode {id : Nat} (hid : id < t.size) :
      Gives (node id) t (t, (t.node? id).getD .root) := by
    obtain ⟨n, hn⟩ := exists_node? hid
    rw [hn]
    exact gives_node hn
  have hparent {id : Nat} (hid : id < t.size) : Gives (Access.parent id) t (t, t.parent id) := by
    obtain ⟨n, hn⟩ := exists_node? hid
    rw [parent_of_node? hn]
    exact (gives_node hn).bind rfl
  exact ⟨failsOutside_of hnode fails_node,
    failsOutside_of hparent fun hid => (fails_node hid).bind _,
    fun name => failsOutside_of (gives_child hw · name) (fails_child · name),
    fun path => failsOutside_of (gives_lookup hw · path) (fails_lookup · path),
    fun path => failsOutside_of (gives_resolve hw · path) (fails_resolve · path),
    fun key value => failsOutside_of (gives_edit · _) (fails_edit · _),
    fun name => failsOutside_of (gives_edit · _) (fails_edit · _),
    fun sep => failsOutside_of (gives_printFrom hw · sep) (fails_printFrom · sep),
    gives_parseField hw hroot, gives_parseFields hw hroot, gives_printFrom hw hroot⟩

/-- The field `b` is added to a tree that has been saved, and then the copy is taken back. -/
def copied : Tree := Tree.empty.after (.parseField "a".toList)

theorem Session.failsOutside_copied :
    Session copied copied ∧ Gives (Access.resolve 1 "b".toList) copied (copied.resolve 1 "b".toList) ∧
      (copied.resolve 1 "b".toList).2 = 2 ∧
      Access.resolve 2 "c".toList copied = some (.error ⟨2, 2⟩, copied) := by
  have hcopied : Reachable copied := .after .empty _ trivial
  have hsize : copied.size = 2 := by decide +kernel
  have hlt : 1 < copied.size := by simp [hsize]
  have hcall := (Operation.resolve 1 "b".toList).gives_access hcopied.wellFormed hcopied.root_lt hlt
  have h : Session copied copied := .restore (.call hcopied.session.save _ hcall)
  obtain ⟨-, -, -, -, hresolve, -⟩ := h.failsOutside
  refine ⟨h, (hresolve _).gives 1 hlt, by decide +kernel, ((hresolve _).fails_iff 2 _ _).2 ?_⟩
  rw [hsize]
  exact ⟨Nat.le_refl 2, rfl, rfl⟩

end Tree

end QueryShorthand
