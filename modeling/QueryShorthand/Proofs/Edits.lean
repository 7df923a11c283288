import Mathlib.Logic.Relation
import QueryShorthand.Plan

/-! Every operation on a tree is a run of three kinds of edits: a missing field is added,
a filter is written, an alias is written. A property that each edit keeps therefore holds
of every tree that operations can lead to. -/

namespace QueryShorthand
set_option autoImplicit false

namespace Tree

inductive Edit : Tree → Tree → Prop where
  | push {t : Tree} {id : Nat} {name : Text} (h : id < t.size) (hdot : '.' ∉ name)
      (hnew : t.child id name = none) : Edit t (t.push id name)
  | setFilter {t : Tree} {id : Nat} (h : id < t.size) (key value : Text) :
      Edit t (t.setFilter id key value)
  | setAlias {t : Tree} {id : Nat} (h : id < t.size) (name : Text) : Edit t (t.setAlias id name)

abbrev Edits : Tree → Tree → Prop := Relation.ReflTransGen Edit

theorem Edit.size_le {t t' : Tree} (h : Edit t t') : t.size ≤ t'.size := by
  cases h <;> simp

theorem Edits.size_le {t t' : Tree} (h : Edits t t') : t.size ≤ t'.size := by
  induction h with
  | refl => exact Nat.le_refl _
  | tail _ he ih => exact Nat.le_trans ih he.size_le

theorem Edits.keep {P : Tree → Prop} (hP : ∀ {t t' : Tree}, Edit t t' → P t → P t') {t t' : Tree}
    (h : Edits t t') (ht : P t) : P t' := by
  induction h with
  | refl => exact ht
  | tail _ he ih => exact hP he ih

/-- Edits lead from `t` to a tree, and the index beside it is one of that tree's. -/
def LeadsTo (t : Tree) (here : Tree × Nat) : Prop := Edits t here.1 ∧ here.2 < here.1.size

theorem LeadsTo.refl {t : Tree} {id : Nat} (h : id < t.size) : t.LeadsTo (t, id) :=
  ⟨.refl, h⟩

theorem LeadsTo.trans {t : Tree} {here there : Tree × Nat} (h : t.LeadsTo here)
    (h' : here.1.LeadsTo there) : t.LeadsTo there :=
  ⟨h.1.trans h'.1, h'.2⟩

theorem leadsTo_enter {t : Tree} {id : Nat} {name : Text} (h : id < t.size) (hdot : '.' ∉ name) :
    t.LeadsTo (t.enter id name) := by
  unfold enter
  split
  · rename_i c hc
    exact .refl (lt_size_of_name (child_eq_some hc).2)
  · rename_i hnew
    exact ⟨.single (.push h hdot hnew), by simp⟩

theorem leadsTo_resolve {t : Tree} {id : Nat} (h : id < t.size) (path : Text) :
    t.LeadsTo (t.resolve id path) := by
  have hdot : ∀ name ∈ pieces '.' path, '.' ∉ name := fun _ => not_mem_of_mem_pieces
  unfold resolve
  generalize pieces '.' path = names at hdot
  induction names generalizing t id with
  | nil => exact .refl h
  | cons name names ih =>
    have hstep := leadsTo_enter h (hdot name (by simp))
    exact hstep.trans (ih hstep.2 fun s hs => hdot s (by simp [hs]))

theorem leadsTo_setFilter {t : Tree} {id : Nat} (h : id < t.size) (key value : Text) :
    t.LeadsTo (t.setFilter id key value, id) :=
  ⟨.single (.setFilter h key value), by simpa⟩

theorem leadsTo_setAlias {t : Tree} {id : Nat} (h : id < t.size) (name : Text) :
    t.LeadsTo (t.setAlias id name, id) :=
  ⟨.single (.setAlias h name), by simpa⟩

theorem leadsTo_follow {t : Tree} {base id : Nat} (hbase : base < t.size) (h : id < t.size)
    (step : Step) : t.LeadsTo (follow base (t, id) step) := by
  cases step with
  | descend name => exact leadsTo_resolve h name
  | sibling name => exact leadsTo_resolve hbase name
  | mark label =>
    cases label with
    | filter key value => exact leadsTo_setFilter h key value
    | aliased target name =>
      have hr := leadsTo_resolve h target
      exact hr.trans (leadsTo_setAlias hr.2 name)

theorem leadsTo_followBatch {t : Tree} {id : Nat} (h : id < t.size) (steps : List Step) :
    t.LeadsTo (followBatch (t, id) steps) := by
  have hfold : ∀ (base : Nat) (here : Tree × Nat), t.LeadsTo here → base < here.1.size →
      t.LeadsTo (steps.foldl (follow base) here) := by
    induction steps with
    | nil => exact fun _ _ hhere _ => hhere
    | cons step steps ih =>
      intro base here hhere hbase
      have hstep := leadsTo_follow hbase hhere.2 step
      exact ih base _ (hhere.trans hstep) (Nat.lt_of_lt_of_le hbase hstep.1.size_le)
  exact hfold id (t, id) (.refl h) h

theorem leadsTo_apply {t : Tree} (h : 0 < t.size) (plan : Plan) : t.LeadsTo (t.apply plan) := by
  have hfold : ∀ here : Tree × Nat, t.LeadsTo here → t.LeadsTo (plan.foldl followBatch here) := by
    induction plan with
    | nil => exact fun _ hhere => hhere
    | cons steps plan ih =>
      intro here hhere
      exact ih _ (hhere.trans (leadsTo_followBatch hhere.2 steps))
  exact hfold (t, root) (.refl h)

theorem leadsTo_parseField {t : Tree} {spec : Text} {here : Tree × Nat} (h : 0 < t.size)
    (hp : t.parseField spec = .ok here) : t.LeadsTo here := by
  unfold parseField at hp
  cases hplan : Plan.ofSpec spec with
  | error e => simp [hplan, Except.map] at hp
  | ok plan =>
    simp only [hplan, Except.map, Except.ok.injEq] at hp
    exact hp ▸ leadsTo_apply h plan

theorem edits_parseFields {t : Tree} (h : 0 < t.size) (specs : List Text) :
    Edits t (t.parseFields specs).1 := by
  induction specs generalizing t with
  | nil => exact .refl
  | cons spec specs ih =>
    unfold parseFields
    split
    · rename_i t' id hp
      have hstep := leadsTo_parseField h hp
      exact hstep.1.trans (ih (Nat.lt_of_lt_of_le h hstep.1.size_le))
    · exact .refl

end Tree

inductive Operation where
  | resolve (id : Nat) (path : Text)
  | setFilter (id : Nat) (key value : Text)
  | setAlias (id : Nat) (name : Text)
  | parseField (spec : Text)
  | parseFields (specs : List Text)

/-- A call by index is one on an index of the tree. -/
def Operation.Valid (t : Tree) : Operation → Prop
  | .resolve id _ | .setFilter id _ _ | .setAlias id _ => id < t.size
  | .parseField _ | .parseFields _ => True

namespace Tree

/-- The tree that a call leaves behind, be it successful or failing. -/
def after (t : Tree) : Operation → Tree
  | .resolve id path => (t.resolve id path).1
  | .setFilter id key value => t.setFilter id key value
  | .setAlias id name => t.setAlias id name
  | .parseField spec =>
    match t.parseField spec with
    | .ok (t', _) => t'
    | .error _ => t
  | .parseFields specs => (t.parseFields specs).1

/-- The trees that calls can lead to, from the tree that holds nothing but its root. -/
inductive Reachable : Tree → Prop where
  | empty : Reachable .empty
  | after {t : Tree} (h : Reachable t) (op : Operation) (hop : op.Valid t) : Reachable (t.after op)

theorem edits_after {t : Tree} (h : 0 < t.size) {op : Operation} (hop : op.Valid t) :
    Edits t (t.after op) := by
  cases op with
  | resolve id path => exact (leadsTo_resolve hop path).1
  | setFilter id key value => exact .single (.setFilter hop key value)
  | setAlias id name => exact .single (.setAlias hop name)
  | parseField spec =>
    simp only [after]
    split
    · rename_i t' id hp
      exact (leadsTo_parseField h hp).1
    · exact .refl
  | parseFields specs => exact edits_parseFields h specs

theorem Reachable.edits {t : Tree} (h : Reachable t) : Edits .empty t := by
  induction h with
  | empty => exact .refl
  | after _ op hop ih => exact ih.trans (edits_after ih.size_le hop)

theorem reachable_of_parseFields {specs : List Text} {t : Tree}
    (h : QueryShorthand.parseFields specs = .ok t) : Reachable t := by
  have hafter := Reachable.empty.after (.parseFields specs) trivial
  unfold QueryShorthand.parseFields at h
  split at h
  · rename_i u hu
    cases h
    rwa [after, hu] at hafter
  · cases h

end Tree

end QueryShorthand
