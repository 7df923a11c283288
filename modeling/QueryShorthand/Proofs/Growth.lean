import Mathlib.Data.List.Infix
import QueryShorthand.Proofs.Lookup

/-! A tree only grows. What further calls make of it keeps every field in its place, with its
children, its keys and its alias, so that an index or a path that led to a field still does. -/

namespace QueryShorthand
set_option autoImplicit false

theorem Filters.keys_prefix_put (key value : Text) (fs : Filters) :
    keys fs <+: keys (put key value fs) := by
  by_cases hk : key ∈ keys fs
  · rw [keys_put_of_mem hk]
  · rw [keys_put_of_not_mem hk]
    exact List.prefix_append _ _

namespace Tree

/-- The trees that further calls can lead to, be they successful or failing. -/
inductive Later (t : Tree) : Tree → Prop where
  | now : Later t t
  | after {u : Tree} (h : Later t u) (op : Operation) (hop : op.Valid u) : Later t (u.after op)

/-- All that a tree holds is found again in another, where it was. -/
structure Extends (t u : Tree) : Prop where
  size_le : t.size ≤ u.size
  name : ∀ i, i < t.size → u.name i = t.name i
  parent : ∀ i, i < t.size → u.parent i = t.parent i
  children : ∀ i, t.children i <+: u.children i
  keys : ∀ i, Filters.keys (t.filters i) <+: Filters.keys (u.filters i)
  aliasName : ∀ i, t.aliasName i ≠ none → u.aliasName i ≠ none

theorem Extends.refl (t : Tree) : t.Extends t :=
  ⟨Nat.le_refl _, fun _ _ => rfl, fun _ _ => rfl, fun _ => List.prefix_rfl,
    fun _ => List.prefix_rfl, fun _ h => h⟩

theorem Extends.trans {t u v : Tree} (h : t.Extends u) (h' : u.Extends v) : t.Extends v := by
  refine ⟨Nat.le_trans h.size_le h'.size_le, fun i hi => ?_, fun i hi => ?_,
    fun i => (h.children i).trans (h'.children i), fun i => (h.keys i).trans (h'.keys i),
    fun i hi => h'.aliasName i (h.aliasName i hi)⟩
  · rw [h'.name i (Nat.lt_of_lt_of_le hi h.size_le), h.name i hi]
  · rw [h'.parent i (Nat.lt_of_lt_of_le hi h.size_le), h.parent i hi]

theorem extends_push {t : Tree} {id : Nat} (h : id < t.size) (s : Text) :
    t.Extends (t.push id s) := by
  refine ⟨by simp, fun i hi => ?_, fun i hi => ?_, fun i => ?_, fun i => ?_, fun i hi => ?_⟩
  · rw [name_push h, if_neg (Nat.ne_of_lt hi)]
  · rw [parent_push h, if_neg (Nat.ne_of_lt hi)]
  · rw [children_push h]
    split
    · exact List.prefix_append _ _
    · exact List.prefix_rfl
  · rw [filters_push h]
  · rwa [aliasName_push h]

theorem extends_setFilter {t : Tree} {id : Nat} (h : id < t.size) (key value : Text) :
    t.Extends (t.setFilter id key value) := by
  refine ⟨by simp, by simp, by simp, by simp, fun i => ?_, by simp⟩
  rw [filters_setFilter h]
  split
  · exact Filters.keys_prefix_put key value _
  · exact List.prefix_rfl

theorem extends_setAlias {t : Tree} {id : Nat} (h : id < t.size) (s : Text) :
    t.Extends (t.setAlias id s) := by
  refine ⟨by simp, by simp, by simp, by simp, by simp, fun i hi => ?_⟩
  rw [aliasName_setAlias h]
  split
  · simp
  · exact hi

theorem Edit.extends {t u : Tree} (h : Edit t u) : t.Extends u := by
  cases h with
  | push hid _ _ => exact extends_push hid _
  | setFilter hid key value => exact extends_setFilter hid key value
  | setAlias hid name => exact extends_setAlias hid name

theorem Edits.extends {t u : Tree} (h : Edits t u) : t.Extends u :=
  h.keep (fun he hu => hu.trans he.extends) (Extends.refl t)

theorem Later.edits {t u : Tree} (ht : 0 < t.size) (h : t.Later u) : Edits t u := by
  induction h with
  | now => exact .refl
  | after _ op hop ih => exact ih.trans (edits_after (Nat.lt_of_lt_of_le ht ih.size_le) hop)

theorem Extends.climbs {t u : Tree} (h : t.Extends u) {i n : Nat} {names : Path}
    (hc : t.Climbs i n names) : u.Climbs i n names := by
  induction hc with
  | here i => exact .here i
  | up hp hs _ ih =>
    have hlt := lt_size_of_parent hp
    exact .up ((h.parent _ hlt).trans hp) ((h.name _ hlt).trans hs) ih

/-- A younger sibling never hides a field: names of siblings differ, so the parent links decide. -/
theorem Extends.lookup {t u : Tree} (h : t.Extends u) (ht : t.WellFormed) (hu : u.WellFormed)
    {id i : Nat} {path : Text} (hi : t.lookup id path = some i) : u.lookup id path = some i := by
  obtain ⟨names, hne, hc, hpath⟩ := ht.lookup_eq_some_iff.1 hi
  exact hu.lookup_eq_some_iff.2 ⟨names, hne, h.climbs hc, hpath⟩

/-- The way up from an old node leads past old nodes only. -/
theorem Extends.climbs_of_lt {t u : Tree} (h : t.Extends u) (hu : u.WellFormed) {i n : Nat}
    {names : Path} (hc : u.Climbs i n names) (hi : i < t.size) : t.Climbs i n names := by
  induction hc with
  | here i => exact .here i
  | up hp hs _ ih =>
    have hlt := Nat.lt_trans (hu.parent_lt hp) hi
    exact .up ((h.parent _ hi).symm.trans hp) ((h.name _ hi).symm.trans hs) (ih hlt)

section
variable {t u : Tree} (h : t.Extends u) (ht : t.WellFormed) (hu : u.WellFormed)
include h ht hu

theorem Extends.lookup_of_lt {i c : Nat} {q : Text} (hc : c < t.size) (hq : u.lookup i q = some c) :
    t.lookup i q = some c := by
  obtain ⟨names, hne, hclimbs, hpath⟩ := hu.lookup_eq_some_iff.1 hq
  exact ht.lookup_eq_some_iff.2 ⟨names, hne, h.climbs_of_lt hu hclimbs hc, hpath⟩

/-- A path leads somewhere for the first time exactly when it leads to a new node. -/
theorem Extends.newly_found_iff {i : Nat} (hi : i < t.size) (q : Text) :
    t.lookup i q = none ∧ u.lookup i q ≠ none ↔ ∃ c, t.size ≤ c ∧ u.lookup i q = some c := by
  constructor
  · rintro ⟨hold, hnew⟩
    obtain ⟨c, hc⟩ := Option.ne_none_iff_exists'.1 hnew
    refine ⟨c, Nat.le_of_not_lt fun hlt => ?_, hc⟩
    rw [h.lookup_of_lt ht hu hlt hc] at hold
    cases hold
  · rintro ⟨c, hle, hc⟩
    refine ⟨Option.eq_none_iff_forall_ne_some.2 fun d hd => ?_, by rw [hc]; simp⟩
    obtain ⟨names, -, hclimbs, -⟩ := ht.lookup_eq_some_iff.1 hd
    have hlt := hclimbs.lt_size hi
    rw [h.lookup ht hu hd] at hc
    cases hc
    exact absurd hlt (Nat.not_lt.2 hle)

end

/-- Whatever calls follow, no field is lost, renamed or moved, fields and keys are only added
behind those that are there, an alias is never taken away, and a path goes on leading to the
field it led to. -/
theorem Reachable.extends_of_later {t u : Tree} (h : Reachable t) (hu : t.Later u) :
    t.Extends u ∧ ∀ id path i, t.lookup id path = some i → u.lookup id path = some i := by
  have hedits := hu.edits h.root_lt
  have hw := h.wellFormed
  exact ⟨hedits.extends, fun id path i => hedits.extends.lookup hw (hw.edits hedits)⟩

def early : Tree := Tree.empty.after (.parseFields ["u.a(k:1)(b as x)".toList])

/-- A key and an alias are overwritten, a list fails in its second string, and `u` gets a child
without a name, which has a child `a` of its own. -/
def late : Tree :=
  ((early.after (.parseFields ["u.a(k:2)(l:3),c".toList, "u(".toList])).after
    (.setAlias 3 "y".toList)).after (.resolve 1 ".a".toList)

theorem Reachable.extends_of_later_late :
    Reachable early ∧ early.Later late ∧ early ≠ late ∧
      early.lookup root "u.a.b".toList = some 3 ∧ late.lookup root "u.a.b".toList = some 3 ∧
      early.children 1 <+: late.children 1 ∧
      Filters.keys (early.filters 2) <+: Filters.keys (late.filters 2) := by
  have hearly : Reachable early := .after .empty _ trivial
  have hlate : early.Later late := by
    refine .after (.after (.after .now _ ?_) _ ?_) _ ?_
    · trivial
    · change 3 < Tree.size _
      decide +kernel
    · change 1 < Tree.size _
      decide +kernel
  have hlookup : early.lookup root "u.a.b".toList = some 3 := by decide +kernel
  obtain ⟨hextends, hkept⟩ := hearly.extends_of_later hlate
  exact ⟨hearly, hlate, by decide +kernel, hlookup, hkept _ _ _ hlookup, hextends.children 1,
    hextends.keys 2⟩

end Tree

end QueryShorthand
