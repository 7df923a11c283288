import Mathlib.Data.List.Perm.Basic
import QueryShorthand.Proofs.Replay

/-! Putting the same strings into a tree in another order. The fields are the same ones; and
where no two strings write the same label, every field carries the same labels. -/

namespace QueryShorthand
set_option autoImplicit false

def WritesAlias (spec : Text) (p : Path) : Prop := aliasesAt (momentsOfSpec spec) p ≠ []

def WritesFilter (spec : Text) (p : Path) (key : Text) : Prop :=
  key ∈ Filters.keys (filtersAt (momentsOfSpec spec) p)

instance (spec : Text) (p : Path) : Decidable (WritesAlias spec p) :=
  inferInstanceAs (Decidable (_ ≠ _))

instance (spec : Text) (p : Path) (key : Text) : Decidable (WritesFilter spec p key) :=
  inferInstanceAs (Decidable (_ ∈ _))

/-- No alias and no filter is written by two different strings. A string that comes twice is
no conflict, for it writes the same both times. -/
structure Independent (specs : List Text) : Prop where
  aliases : ∀ p, ∀ spec ∈ specs, ∀ spec' ∈ specs, WritesAlias spec p → WritesAlias spec' p →
    spec = spec'
  filters : ∀ p key, ∀ spec ∈ specs, ∀ spec' ∈ specs, WritesFilter spec p key →
    WritesFilter spec' p key → spec = spec'

theorem exists_moment_of_writesAlias {spec : Text} {p : Path} (h : WritesAlias spec p) :
    ∃ m ∈ momentsOfSpec spec, m.cursor = p := by
  obtain ⟨name, hname⟩ := List.exists_mem_of_ne_nil _ h
  obtain ⟨m, hm, -⟩ := List.mem_filterMap.1 hname
  obtain ⟨hmem, hp⟩ := List.mem_filter.1 hm
  exact ⟨m, hmem, of_decide_eq_true hp⟩

theorem exists_moment_of_writesFilter {spec : Text} {p : Path} {key : Text}
    (h : WritesFilter spec p key) :
    ∃ m ∈ momentsOfSpec spec, m.cursor = p ∧ ∃ w ∈ m.filter, w.1 = key := by
  obtain ⟨w, hw, hkey⟩ := List.mem_map.1 h
  obtain ⟨m, hm, hf⟩ := List.mem_filterMap.1 hw
  obtain ⟨hmem, hp⟩ := List.mem_filter.1 hm
  exact ⟨m, hmem, of_decide_eq_true hp, w, hf, hkey⟩

/-- Only places that some string comes to and keys that it writes there can be in conflict. -/
theorem independent_iff {specs : List Text} :
    Independent specs ↔ ∀ spec ∈ specs, ∀ m ∈ momentsOfSpec spec, ∀ spec' ∈ specs,
      (WritesAlias spec m.cursor → WritesAlias spec' m.cursor → spec = spec') ∧
        ∀ w ∈ m.filter, WritesFilter spec m.cursor w.1 → WritesFilter spec' m.cursor w.1 →
          spec = spec' := by
  constructor
  · intro h spec hspec m _ spec' hspec'
    exact ⟨h.aliases m.cursor spec hspec spec' hspec', fun w _ =>
      h.filters m.cursor w.1 spec hspec spec' hspec'⟩
  · refine fun h => ⟨fun p spec hspec spec' hspec' hw hw' => ?_,
      fun p key spec hspec spec' hspec' hw hw' => ?_⟩
    · obtain ⟨m, hm, rfl⟩ := exists_moment_of_writesAlias hw
      exact (h spec hspec m hm spec' hspec').1 hw hw'
    · obtain ⟨m, hm, rfl, w, hfilter, rfl⟩ := exists_moment_of_writesFilter hw
      exact (h spec hspec m hm spec' hspec').2 w hfilter hw hw'

instance (specs : List Text) : Decidable (Independent specs) :=
  decidable_of_iff _ independent_iff.symm

section
variable {α β : Type} {f : α → List β} {xs ys : List α}

theorem getLast?_flatMap_eq_some_iff (hone : ∀ x ∈ xs, ∀ y ∈ xs, f x ≠ [] → f y ≠ [] → x = y)
    {b : β} : (xs.flatMap f).getLast? = some b ↔ ∃ x ∈ xs, (f x).getLast? = some b := by
  have hne {x : α} {b : β} (hx : (f x).getLast? = some b) : f x ≠ [] := by
    intro hnil
    rw [hnil] at hx
    cases hx
  rw [List.getLast?_flatMap]
  constructor
  · intro h
    obtain ⟨x, hx, hb⟩ := List.exists_of_findSome?_eq_some h
    exact ⟨x, List.mem_reverse.1 hx, hb⟩
  · intro h
    obtain ⟨x, hx, hb⟩ := h
    cases h : xs.reverse.findSome? fun x => (f x).getLast? with
    | none =>
      have hnone := List.findSome?_eq_none_iff.1 h x (List.mem_reverse.2 hx)
      rw [hb] at hnone
      cases hnone
    | some b' =>
      obtain ⟨y, hy, hb'⟩ := List.exists_of_findSome?_eq_some h
      rw [hone x hx y (List.mem_reverse.1 hy) (hne hb) (hne hb'), hb'] at hb
      exact hb

/-- When only one element has anything to give, its last is the last in any order. -/
theorem getLast?_flatMap_perm (h : xs.Perm ys)
    (hone : ∀ x ∈ xs, ∀ y ∈ xs, f x ≠ [] → f y ≠ [] → x = y) :
    (xs.flatMap f).getLast? = (ys.flatMap f).getLast? := by
  have hone' : ∀ x ∈ ys, ∀ y ∈ ys, f x ≠ [] → f y ≠ [] → x = y := fun x hx y hy =>
    hone x (h.mem_iff.2 hx) y (h.mem_iff.2 hy)
  apply Option.ext
  intro b
  rw [getLast?_flatMap_eq_some_iff hone, getLast?_flatMap_eq_some_iff hone']
  simp only [h.mem_iff]

end

theorem aliasesAt_moments (specs : List Text) (p : Path) :
    aliasesAt (moments specs) p = specs.flatMap fun spec => aliasesAt (momentsOfSpec spec) p := by
  simp only [aliasesAt, moments, List.filter_flatMap, List.filterMap_flatMap]

theorem filter_filtersAt_moments (specs : List Text) (p : Path) (key : Text) :
    ((filtersAt (moments specs) p).filter fun w => w.1 = key) =
      specs.flatMap fun spec => (filtersAt (momentsOfSpec spec) p).filter fun w => w.1 = key := by
  simp only [filtersAt, moments, List.filter_flatMap, List.filterMap_flatMap]

theorem writesFilter_of_ne_nil {spec : Text} {p : Path} {key : Text}
    (h : ((filtersAt (momentsOfSpec spec) p).filter fun w => w.1 = key) ≠ []) :
    WritesFilter spec p key := by
  obtain ⟨w, hw⟩ := List.exists_mem_of_ne_nil _ h
  obtain ⟨hmem, hkey⟩ := List.mem_filter.1 hw
  exact List.mem_map.2 ⟨w, hmem, of_decide_eq_true hkey⟩

section
variable {specs specs' : List Text} (hi : Independent specs) (hperm : specs.Perm specs')
include hi hperm

theorem Independent.last_alias (p : Path) :
    (aliasesAt (moments specs) p).getLast? = (aliasesAt (moments specs') p).getLast? := by
  rw [aliasesAt_moments, aliasesAt_moments]
  exact getLast?_flatMap_perm hperm fun spec h spec' h' hne hne' =>
    hi.aliases p spec h spec' h' hne hne'

theorem Independent.lastWrite_filtersAt (p : Path) (key : Text) :
    Filters.lastWrite (filtersAt (moments specs) p) key =
      Filters.lastWrite (filtersAt (moments specs') p) key := by
  unfold Filters.lastWrite
  rw [filter_filtersAt_moments, filter_filtersAt_moments]
  congr 1
  exact getLast?_flatMap_perm hperm fun spec h spec' h' hne hne' =>
    hi.filters p key spec h spec' h' (writesFilter_of_ne_nil hne) (writesFilter_of_ne_nil hne')

end

/-! Two trees that have come from the same moments in a different order -/

theorem mem_moments_perm {specs specs' : List Text} (hperm : specs.Perm specs') {m : Moment} :
    m ∈ moments specs ↔ m ∈ moments specs' :=
  (hperm.flatMap_right momentsOfSpec).mem_iff

namespace Tree
variable {t u : Tree} {ms ms' : List Moment}

theorem filter_eq_lookup (t : Tree) (i : Nat) (key : Text) :
    t.filter i key = List.lookup key (t.filters i) := by
  unfold filter filters
  cases t.node? i <;> rfl

theorem WellFormed.mem_names_iff (h : t.WellFormed) {i : Nat} (hi : i < t.size)
    {name : Option Text} :
    name ∈ (t.children i).map t.name ↔
      ∃ s, name = some s ∧ ∃ c, c < t.size ∧ t.path c = t.path i ++ [s] := by
  constructor
  · intro hname
    obtain ⟨c, hc, rfl⟩ := List.mem_map.1 hname
    obtain ⟨hpos, hlt, -⟩ := h.child_path hc
    obtain ⟨s, hs, -⟩ := h.name c hpos hlt
    exact ⟨s, hs, c, hlt, h.path_of_parent ((h.mem_children i c).1 hc) hs⟩
  · intro hname
    obtain ⟨s, rfl, c, hlt, hpath⟩ := hname
    have hpos : 0 < c := h.pos_of_path_ne_nil (by simp [hpath])
    obtain ⟨p, s', hpc, hp, hs, hup⟩ := h.exists_parent hpos hlt
    obtain ⟨hparent, hlast⟩ := List.append_inj' (hup.symm.trans hpath) rfl
    cases h.path_inj (Nat.lt_trans hpc hlt) hi hparent
    cases List.singleton_inj.1 hlast
    exact List.mem_map.2 ⟨c, (h.mem_children _ c).2 hp, hs⟩

theorem WellFormed.nodup_paths (h : t.WellFormed) : ((List.range t.size).map t.path).Nodup := by
  refine List.Nodup.map_on (fun i hi j hj he => ?_) List.nodup_range
  exact h.path_inj (List.mem_range.1 hi) (List.mem_range.1 hj) he

section
variable (ht : t.WellFormed) (hu : u.WellFormed)
    (hpaths : ∀ p, (∃ i, i < t.size ∧ t.path i = p) ↔ ∃ j, j < u.size ∧ u.path j = p)
include ht hu hpaths

theorem WellFormed.size_eq_of_paths : t.size = u.size := by
  have hperm : ((List.range t.size).map t.path).Perm ((List.range u.size).map u.path) := by
    refine (List.perm_ext_iff_of_nodup ht.nodup_paths hu.nodup_paths).2 fun p => ?_
    simpa only [List.mem_map, List.mem_range] using hpaths p
  simpa using hperm.length_eq

theorem WellFormed.names_perm_of_paths {i j : Nat} (hi : i < t.size) (hj : j < u.size)
    (he : t.path i = u.path j) : ((t.children i).map t.name).Perm ((u.children j).map u.name) := by
  refine (List.perm_ext_iff_of_nodup (List.pairwise_map.2 (ht.children_name i))
    (List.pairwise_map.2 (hu.children_name j))).2 fun name => ?_
  rw [ht.mem_names_iff hi, hu.mem_names_iff hj, he]
  simp only [hpaths]

end

theorem root_lt_of_parseFields {specs : List Text} {e : Option ParseError}
    (h : empty.parseFields specs = (t, e)) : root < t.size := by
  have hroot : 0 < empty.size := Nat.one_pos
  have hle := (edits_parseFields hroot specs).size_le
  rwa [h] at hle

theorem Means.exists_path_iff (h : t.Means ms) (hsize : 0 < t.size) {p : Path} :
    (∃ i, i < t.size ∧ t.path i = p) ↔ p = [] ∨ Seen ms p := by
  by_cases hp : p = []
  · exact iff_of_true ⟨root, hsize, h.wellFormed.path_root.trans hp.symm⟩ (.inl hp)
  · rw [← h.seen_iff hp, or_iff_right hp]

theorem Means.paths_iff (ht : t.Means ms) (ht0 : 0 < t.size) (hu : u.Means ms') (hu0 : 0 < u.size)
    (hms : ∀ m, m ∈ ms ↔ m ∈ ms') (p : Path) :
    (∃ i, i < t.size ∧ t.path i = p) ↔ ∃ j, j < u.size ∧ u.path j = p := by
  rw [ht.exists_path_iff ht0, hu.exists_path_iff hu0]
  simp only [Seen, hms]

theorem Means.filter_eq (h : t.Means ms) {i : Nat} (hi : i < t.size) (key : Text) :
    t.filter i key = Filters.lastWrite (filtersAt ms (t.path i)) key := by
  rw [filter_eq_lookup, h.filters i hi, Filters.lookup_ofWrites]

theorem WellFormed.filters_perm (ht : t.WellFormed) (hu : u.WellFormed) {i j : Nat}
    (h : ∀ key, t.filter i key = u.filter j key) : (t.filters i).Perm (u.filters j) := by
  have htkeys := ht.nodup_filters i
  have hukeys := hu.nodup_filters j
  refine (List.perm_ext_iff_of_nodup htkeys.of_map hukeys.of_map).2 fun e => ?_
  rw [Filters.mem_iff_lookup htkeys, Filters.mem_iff_lookup hukeys, ← filter_eq_lookup,
    ← filter_eq_lookup, h]

end Tree

/-- Strings that can be read can be read in any order. The tree has the same fields in the end,
each with the same fields below it. If no two different strings write the same alias or the
same filter, every field also has the same alias and the same value under every key. -/
theorem parseFields_perm {specs specs' : List Text}
    (h : ∀ spec ∈ specs, ∃ here, Tree.empty.parseField spec = .ok here)
    (hperm : specs.Perm specs') :
    ∃ t u, parseFields specs = .ok t ∧ parseFields specs' = .ok u ∧ t.size = u.size ∧
      (∀ p, (∃ i, i < t.size ∧ t.path i = p) ↔ ∃ j, j < u.size ∧ u.path j = p) ∧
      ∀ i j, i < t.size → j < u.size → t.path i = u.path j →
        ((t.children i).map t.name).Perm ((u.children j).map u.name) ∧
        (Independent specs → t.aliasName i = u.aliasName j ∧
          (∀ key, t.filter i key = u.filter j key) ∧ (t.filters i).Perm (u.filters j)) := by
  have h' : ∀ spec ∈ specs', ∃ here, Tree.empty.parseField spec = .ok here := fun spec hspec =>
    h spec (hperm.mem_iff.2 hspec)
  obtain ⟨t, ht⟩ := Tree.exists_parseFields h .empty
  obtain ⟨u, hu⟩ := Tree.exists_parseFields h' .empty
  have hmt : t.Means (moments specs) := Tree.means_empty.parseFields (by simp) ht
  have hmu : u.Means (moments specs') := Tree.means_empty.parseFields (by simp) hu
  have hpaths := hmt.paths_iff (Tree.root_lt_of_parseFields ht) hmu
    (Tree.root_lt_of_parseFields hu) fun m => mem_moments_perm hperm
  have hwt := hmt.wellFormed
  have hwu := hmu.wellFormed
  refine ⟨t, u, ?_, ?_, hwt.size_eq_of_paths hwu hpaths, hpaths,
    fun i j hi hj he => ⟨?_, fun hind => ?_⟩⟩
  · rw [parseFields, ht]
  · rw [parseFields, hu]
  · exact hwt.names_perm_of_paths hwu hpaths hi hj he
  · have hfilter : ∀ key, t.filter i key = u.filter j key := fun key => by
      rw [hmt.filter_eq hi, hmu.filter_eq hj, ← he, hind.lastWrite_filtersAt hperm]
    refine ⟨?_, hfilter, hwt.filters_perm hwu hfilter⟩
    rw [hmt.aliasName i hi, hmu.aliasName j hj, ← he, hind.last_alias hperm]

/-- Strings that go through fields of one another, two of them with a filter for the same field. -/
def unordered : List Text :=
  ["b.d(k:1)".toList, "a,b.c(k:2)".toList, "b.d(l:3)(e as x)".toList, "a(k:4)(k:5).f".toList]

def forwards : Tree := Tree.empty.after (.parseFields unordered)

def backwards : Tree := Tree.empty.after (.parseFields unordered.reverse)

theorem parseFields_perm_unordered :
    (∀ spec ∈ unordered, ∃ here, Tree.empty.parseField spec = .ok here) ∧
      unordered.Perm unordered.reverse ∧ Independent unordered ∧
      forwards.path 2 = backwards.path 4 ∧
      ((forwards.children 0).map forwards.name).Perm ((backwards.children 0).map backwards.name) ∧
      (forwards.filters 2).Perm (backwards.filters 4) := by
  have hspecs : ∀ spec ∈ unordered, ∃ here, Tree.empty.parseField spec = .ok here :=
    Tree.readable_of_isOk (by decide +kernel)
  have hperm : unordered.Perm unordered.reverse := (List.reverse_perm unordered).symm
  have hind : Independent unordered := by decide +kernel
  have hpath : forwards.path 2 = backwards.path 4 := by decide +kernel
  have hroot : forwards.path 0 = backwards.path 0 := by decide +kernel
  have hforwards : parseFields unordered = .ok forwards := by decide +kernel
  have hbackwards : parseFields unordered.reverse = .ok backwards := by decide +kernel
  obtain ⟨t, u, ht, hu, -, -, hsame⟩ := parseFields_perm hspecs hperm
  cases hforwards.symm.trans ht
  cases hbackwards.symm.trans hu
  have hnames := (hsame 0 0 (by decide +kernel) (by decide +kernel) hroot).1
  have hlabels := (hsame 2 4 (by decide +kernel) (by decide +kernel) hpath).2 hind
  exact ⟨hspecs, hperm, hind, hpath, hnames, hlabels.2.2⟩

/-- The two filters stand in the order of the strings that write them. -/
example : Filters.keys (forwards.filters 2) = ["k".toList, "l".toList] ∧
    Filters.keys (backwards.filters 4) = ["l".toList, "k".toList] := by
  decide +kernel

end QueryShorthand
