import QueryShorthand.Proofs.Failures
import QueryShorthand.Proofs.Replay

/-! Putting strings into a tree that they have been put into before. The fields that they name
are all there, and what they wrote last is written again, so the tree is the same in the end,
though not always in between. -/

namespace QueryShorthand.Tree
set_option autoImplicit false

section
variable {t u v : Tree} {ms : List Moment}

/-- Walking the same way a second time adds no field and leaves every label as it was. -/
theorem Walks.again (h : t.Walks ms u) (h' : u.Walks ms v) : v = u := by
  have hsize : u.size = v.size := by
    have hle := h'.size_le
    by_contra hne
    have hlt : u.size < v.size := by omega
    -- A new field would be on the way of some moment, and those ways are there already.
    exact h'.unseen h.found (Nat.le_refl _) hlt (h'.fresh (Nat.le_refl _) hlt)
  refine (h.wellFormed.eq_of_path h'.wellFormed hsize (fun i hi => (h'.path hi).symm)
    (fun i hi => ?_) fun i hi => ?_).symm
  · rw [h'.aliasName (hsize ▸ hi), h'.path hi, h.aliasName hi]
    cases (aliasesAt ms (u.path i)).getLast? <;> rfl
  · have hnodup := h.wellFormed_start.nodup_filters i
    rw [h'.filters (hsize ▸ hi), h'.path hi, h.filters hi, Filters.putAll_putAll hnodup]

end

section
variable {t u a b : Tree} {spec : Text} {i j : Nat}

theorem WellFormed.walks_applied (h : t.WellFormed) (hsize : 0 < t.size) {specs : List Text}
    (hspecs : ∀ spec ∈ specs, ∃ here, empty.parseField spec = .ok here) :
    t.Walks (moments specs) (t.applied specs) :=
  h.walks_parseFields hsize (t.parseFields_of_readable hspecs)

/-- A string that comes again ends on the node that it ended on before, for that node is at the
same path and is still there. -/
theorem WellFormed.same_node (ht : t.WellFormed) (hsize : 0 < t.size)
    (ha : t.parseField spec = .ok (a, i)) {ms : List Moment} (hwalk : a.Walks ms u)
    (hb : u.parseField spec = .ok (b, j)) : i = j := by
  have hi := ht.arrives_parseField hsize ha
  have hold : i < u.size := Nat.lt_of_lt_of_le hi.lt_size hwalk.size_le
  have hj := hwalk.wellFormed.arrives_parseField (Nat.zero_lt_of_lt hold) hb
  have hpath : b.path i = b.path j := by
    rw [hj.walks.path hold, hwalk.path hi.lt_size]
    exact hi.path.trans hj.path.symm
  exact hj.walks.wellFormed.path_inj (Nat.lt_of_lt_of_le hold hj.walks.size_le) hj.lt_size hpath

theorem Walks.trans_applied {ms : List Moment} (h : t.Walks ms u) (hsize : 0 < t.size)
    {specs : List Text} (hspecs : ∀ spec ∈ specs, ∃ here, empty.parseField spec = .ok here) :
    u.Walks (moments specs) (u.applied specs) :=
  h.wellFormed.walks_applied (Nat.lt_of_lt_of_le hsize h.size_le) hspecs

theorem WellFormed.parseField_again (h : t.WellFormed) (hsize : 0 < t.size)
    {before behind : List Text}
    (hspecs : ∀ s ∈ before ++ spec :: behind, ∃ here, empty.parseField s = .ok here) :
    ∃ a b id, (t.applied before).parseField spec = .ok (a, id) ∧
      ((t.applied (before ++ spec :: behind)).applied before).parseField spec = .ok (b, id) := by
  obtain ⟨hbefore, hrest⟩ := List.forall_mem_append.1 hspecs
  obtain ⟨hspec, hbehind⟩ := List.forall_mem_cons.1 hrest
  have hall := h.walks_applied hsize hspecs
  have hfirst := h.walks_applied hsize hbefore
  have hsecond := hall.trans_applied hsize hbefore
  have hfirst0 := Nat.lt_of_lt_of_le hsize hfirst.size_le
  obtain ⟨⟨a, i⟩, ha⟩ := exists_parseField hspec (t.applied before)
  obtain ⟨⟨b, j⟩, hb⟩ := exists_parseField hspec
    ((t.applied (before ++ spec :: behind)).applied before)
  have hwalk := (hfirst.wellFormed.arrives_parseField hfirst0 ha).walks
  have hon := hwalk.trans_applied hfirst0 hbehind
  rw [← applied_cons ha, ← applied_append] at hon
  refine ⟨a, b, j, ?_, hb⟩
  rw [ha, hfirst.wellFormed.same_node hfirst0 ha (hon.trans hsecond) hb]

end

/-- Strings that have been put into a tree can be put into it again without any change, and
each of them ends on the same node as the first time. -/
theorem Reachable.parseFields_again {t : Tree} (h : Reachable t) {specs : List Text}
    (hspecs : ∀ spec ∈ specs, ∃ here, Tree.empty.parseField spec = .ok here) :
    ∃ u, t.parseFields specs = (u, none) ∧ u.parseFields specs = (u, none) ∧
      ∀ before spec behind, specs = before ++ spec :: behind → ∃ a b id,
        (t.applied before).parseField spec = .ok (a, id) ∧
          (u.applied before).parseField spec = .ok (b, id) := by
  have hfirst := h.wellFormed.walks_applied h.root_lt hspecs
  have hsecond := hfirst.trans_applied h.root_lt hspecs
  have hsame : (t.applied specs).applied specs = t.applied specs := hfirst.again hsecond
  refine ⟨t.applied specs, t.parseFields_of_readable hspecs, ?_, ?_⟩
  · rw [(t.applied specs).parseFields_of_readable hspecs, hsame]
  · intro before spec behind he
    subst he
    exact h.wellFormed.parseField_again h.root_lt hspecs

/-- A tree with two fields below `u`, one of them with a filter. -/
def furnished : Tree := Tree.empty.after (.parseFields ["u.b(m:0),c".toList])

/-- Later strings write over a filter of `a`, over the alias of `a`, and over what was there. -/
def overwrites : List Text :=
  ["u.a(k:1)(l:2)".toList, "u(a as x)".toList, "u.a(k:3),b(m:4)".toList, "u(a as y)".toList]

theorem Reachable.parseFields_again_overwrites :
    Reachable furnished ∧ (∀ spec ∈ overwrites, ∃ here, Tree.empty.parseField spec = .ok here) ∧
      ∃ u, furnished.parseFields overwrites = (u, none) ∧ u.parseFields overwrites = (u, none) ∧
        ∃ a b id, (furnished.applied (overwrites.take 2)).parseField "u.a(k:3),b(m:4)".toList =
            .ok (a, id) ∧
          (u.applied (overwrites.take 2)).parseField "u.a(k:3),b(m:4)".toList = .ok (b, id) := by
  have h : Reachable furnished := .after .empty _ trivial
  have hspecs : ∀ spec ∈ overwrites, ∃ here, Tree.empty.parseField spec = .ok here :=
    readable_of_isOk (by decide +kernel)
  obtain ⟨u, hfirst, hsecond, hnodes⟩ := h.parseFields_again hspecs
  exact ⟨h, hspecs, u, hfirst, hsecond, hnodes (overwrites.take 2) _ (overwrites.drop 3) rfl⟩

/-- Two strings into the second pass, `a` has its old filter value and its old alias again. -/
example : (furnished.applied overwrites).applied (overwrites.take 2) ≠
    furnished.applied overwrites := by
  decide +kernel

end QueryShorthand.Tree
