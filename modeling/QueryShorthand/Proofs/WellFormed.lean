import Mathlib.Data.List.Nodup
import QueryShorthand.Proofs.Edits

/-! The shape of a tree in its array. Parent links and lists of children agree, indices
grow on the way down and along every list of children, and neither two children of one
field nor two filters of one field share a name. -/

namespace QueryShorthand.Tree
set_option autoImplicit false

structure WellFormed (t : Tree) : Prop where
  root_name : t.name root = none
  root_parent : t.parent root = none
  name : ∀ i, 0 < i → i < t.size → ∃ s, t.name i = some s ∧ '.' ∉ s
  parent : ∀ i, 0 < i → i < t.size → ∃ p, t.parent i = some p ∧ p < i
  mem_children : ∀ p i, i ∈ t.children p ↔ t.parent i = some p
  children_lt : ∀ p, (t.children p).Pairwise (· < ·)
  children_name : ∀ p, (t.children p).Pairwise fun c d => t.name c ≠ t.name d
  filters : ∀ i n, t.node? i = some n → (Filters.keys n.filters).Nodup

theorem lt_size_of_parent {t : Tree} {i p : Nat} (h : t.parent i = some p) : i < t.size := by
  obtain ⟨n, hn, -⟩ := Option.bind_eq_some_iff.1 h
  exact lt_size_of_node? hn

theorem WellFormed.parent_lt {t : Tree} (h : t.WellFormed) {i p : Nat} (hp : t.parent i = some p) :
    p < i := by
  have hi : 0 < i := by
    rcases Nat.eq_zero_or_pos i with rfl | hi
    · rw [show t.parent 0 = none from h.root_parent] at hp
      cases hp
    · exact hi
  obtain ⟨q, hq, hlt⟩ := h.parent i hi (lt_size_of_parent hp)
  rw [hq] at hp
  cases hp
  exact hlt

theorem WellFormed.lt_size_of_mem {t : Tree} (h : t.WellFormed) {p c : Nat}
    (hc : c ∈ t.children p) : c < t.size :=
  lt_size_of_parent ((h.mem_children p c).1 hc)

theorem WellFormed.children_lt_size {t : Tree} (h : t.WellFormed) {i : Nat} {n : Node}
    (hn : t.node? i = some n) : ∀ c ∈ n.children, i < c ∧ c < t.size := by
  intro c hc
  rw [← children_of_node? hn] at hc
  have hp := (h.mem_children i c).1 hc
  exact ⟨h.parent_lt hp, lt_size_of_parent hp⟩

/-- Whatever a node has when all its children have it, every node has: children are younger, so
the way down ends. -/
theorem WellFormed.of_children {t : Tree} (h : t.WellFormed) {P : Nat → Prop}
    (hP : ∀ i n, t.node? i = some n → (∀ c ∈ n.children, P c) → P i) {i : Nat} (hi : i < t.size) :
    P i := by
  induction hk : t.size - i using Nat.strongRecOn generalizing i with
  | ind k ih =>
    obtain ⟨n, hn⟩ := exists_node? hi
    refine hP i n hn fun c hc => ?_
    obtain ⟨hlt, hsize⟩ := h.children_lt_size hn c hc
    exact ih (t.size - c) (by omega) hsize rfl

theorem wellFormed_empty : empty.WellFormed := by
  have hnone (i : Nat) (h : 0 < i) : empty.node? i = none := node?_eq_none.2 h
  have hparent (i : Nat) : empty.parent i = none := by
    rcases Nat.eq_zero_or_pos i with rfl | hi
    · rfl
    · rw [Tree.parent, hnone i hi]
      rfl
  have hchildren (i : Nat) : empty.children i = [] := by
    rcases Nat.eq_zero_or_pos i with rfl | hi
    · rfl
    · rw [children, hnone i hi]
      rfl
  refine ⟨rfl, rfl, fun i hi hlt => ?_, fun i hi hlt => ?_, fun p i => ?_, fun p => ?_,
    fun p => ?_, fun i n hn => ?_⟩
  · rw [size_empty] at hlt
    omega
  · rw [size_empty] at hlt
    omega
  · rw [hchildren, hparent]
    simp
  · rw [hchildren]
    exact .nil
  · rw [hchildren]
    exact .nil
  · rcases Nat.eq_zero_or_pos i with rfl | hi
    · cases hn
      exact .nil
    · rw [hnone i hi] at hn
      cases hn

theorem WellFormed.modify {t : Tree} (h : t.WellFormed) {id : Nat} {f : Node → Node}
    (hname : ∀ n, (f n).name = n.name) (hparent : ∀ n, (f n).parent = n.parent)
    (hchildren : ∀ n, (f n).children = n.children)
    (hfilters : ∀ n, (Filters.keys n.filters).Nodup → (Filters.keys (f n).filters).Nodup) :
    (t.modify id f).WellFormed := by
  have hn (i : Nat) : (t.modify id f).name i = t.name i := name_modify hname i
  have hp (i : Nat) : (t.modify id f).parent i = t.parent i := parent_modify hparent i
  have hc (i : Nat) : (t.modify id f).children i = t.children i := children_modify hchildren i
  constructor
  · rw [hn, h.root_name]
  · rw [hp, h.root_parent]
  · simpa only [hn, size_modify] using h.name
  · simpa only [hp, size_modify] using h.parent
  · simpa only [hc, hp] using h.mem_children
  · simpa only [hc] using h.children_lt
  · simpa only [hc, hn] using h.children_name
  · intro i n hi
    rw [node?_modify] at hi
    split at hi
    · obtain ⟨m, hm, rfl⟩ := Option.map_eq_some_iff.1 hi
      exact hfilters m (h.filters i m hm)
    · exact h.filters i n hi

theorem WellFormed.push {t : Tree} (h : t.WellFormed) {id : Nat} {s : Text} (hid : id < t.size)
    (hdot : '.' ∉ s) (hnew : t.child id s = none) : (t.push id s).WellFormed := by
  have hroot : root ≠ t.size := Nat.ne_of_lt (Nat.zero_lt_of_lt hid)
  have hold {p c : Nat} (hc : c ∈ t.children p) : c ≠ t.size := Nat.ne_of_lt (h.lt_size_of_mem hc)
  constructor
  · rw [name_push hid, if_neg hroot, h.root_name]
  · rw [parent_push hid, if_neg hroot, h.root_parent]
  · intro i hi hlt
    rw [size_push] at hlt
    rw [name_push hid]
    split
    · exact ⟨s, rfl, hdot⟩
    · exact h.name i hi (by omega)
  · intro i hi hlt
    rw [size_push] at hlt
    rw [parent_push hid]
    split
    · exact ⟨id, rfl, by omega⟩
    · exact h.parent i hi (by omega)
  · intro p i
    rw [children_push hid, parent_push hid]
    by_cases hi : i = t.size
    · subst hi
      have hnot : t.size ∉ t.children p := fun hm => hold hm rfl
      by_cases hp : p = id
      · simp [hp]
      · simp [hp, hnot, Ne.symm hp]
    · rw [if_neg hi, ← h.mem_children]
      split <;> simp [hi]
  · intro p
    rw [children_push hid]
    split
    · refine List.pairwise_append.2 ⟨h.children_lt p, List.pairwise_singleton _ _, ?_⟩
      intro c hc d hd
      rw [List.mem_singleton.1 hd]
      exact h.lt_size_of_mem hc
    · exact h.children_lt p
  · intro p
    have hnames : (t.children p).Pairwise fun c d => (t.push id s).name c ≠ (t.push id s).name d := by
      refine (h.children_name p).imp_of_mem fun {c d} hc hd hne => ?_
      rwa [name_push hid, name_push hid, if_neg (hold hc), if_neg (hold hd)]
    rw [children_push hid]
    split
    · rename_i hp
      refine List.pairwise_append.2 ⟨hnames, List.pairwise_singleton _ _, ?_⟩
      intro c hc d hd
      rw [List.mem_singleton.1 hd, name_push hid, name_push hid, if_neg (hold hc), if_pos rfl]
      have hfind := List.find?_eq_none.1 hnew c (hp ▸ hc)
      simpa using hfind
    · exact hnames
  · intro i n hi
    rw [node?_push hid] at hi
    split at hi
    · cases hi
      exact .nil
    · split at hi
      · obtain ⟨m, hm, rfl⟩ := Option.map_eq_some_iff.1 hi
        exact h.filters i m hm
      · exact h.filters i n hi

theorem WellFormed.edit {t t' : Tree} (he : Edit t t') (h : t.WellFormed) : t'.WellFormed := by
  cases he with
  | push hid hdot hnew => exact h.push hid hdot hnew
  | setFilter hid key value =>
    exact h.modify (fun _ => rfl) (fun _ => rfl) (fun _ => rfl)
      fun n hn => Filters.nodup_keys_put hn key value
  | setAlias hid name =>
    exact h.modify (fun _ => rfl) (fun _ => rfl) (fun _ => rfl) fun _ hn => hn

theorem WellFormed.edits {t t' : Tree} (he : Edits t t') (h : t.WellFormed) : t'.WellFormed :=
  he.keep WellFormed.edit h

theorem Reachable.wellFormed {t : Tree} (h : Reachable t) : t.WellFormed :=
  wellFormed_empty.edits h.edits

theorem Reachable.root_lt {t : Tree} (h : Reachable t) : root < t.size := h.edits.size_le

theorem WellFormed.nodup_children {t : Tree} (h : t.WellFormed) (p : Nat) : (t.children p).Nodup :=
  (h.children_lt p).imp Nat.ne_of_lt

theorem WellFormed.nodup_filters {t : Tree} (h : t.WellFormed) (i : Nat) :
    (Filters.keys (t.filters i)).Nodup := by
  unfold Tree.filters
  cases hn : t.node? i with
  | none => exact .nil
  | some n => exact h.filters i n hn

theorem WellFormed.isRoot_iff {t : Tree} (h : t.WellFormed) {i : Nat} {n : Node}
    (hn : t.node? i = some n) : n.isRoot = true ↔ i = 0 := by
  rw [Node.isRoot, Option.isNone_iff_eq_none, ← parent_of_node? hn]
  constructor
  · intro hnone
    by_contra hi
    obtain ⟨p, hp, -⟩ := h.parent i (Nat.pos_of_ne_zero hi) (lt_size_of_node? hn)
    rw [hp] at hnone
    cases hnone
  · rintro rfl
    exact h.root_parent

/-- The root is the only node without a parent. Every other node has a name without dots
and an older parent, and stands once in the list of that parent and in no other. -/
theorem Reachable.arena {t : Tree} (h : Reachable t) :
    (∃ n, t.node? root = some n ∧ n.name = none ∧ n.parent = none) ∧
      (∀ i n, t.node? i = some n → (n.isRoot = true ↔ i = root)) ∧
      (∀ i, 0 < i → i < t.size → (∃ s, t.name i = some s ∧ '.' ∉ s) ∧
        ∃ p, t.parent i = some p ∧ p < i ∧ (t.children p).count i = 1 ∧
          ∀ q, q ≠ p → i ∉ t.children q) ∧
      (∀ p, (t.children p).Pairwise (· < ·) ∧ ∀ c ∈ t.children p, p < c ∧ c < t.size) ∧
      (∀ p, ((t.children p).map t.name).Nodup) ∧
      ∀ i n, t.node? i = some n → (Filters.keys n.filters).Nodup := by
  have hw := h.wellFormed
  refine ⟨?_, fun i n => hw.isRoot_iff, fun i hi hlt => ⟨hw.name i hi hlt, ?_⟩,
    fun p => ⟨hw.children_lt p, fun c hc => ?_⟩, fun p => ?_, hw.filters⟩
  · obtain ⟨n, hn⟩ := exists_node? h.root_lt
    have hname := hw.root_name
    have hparent := hw.root_parent
    rw [Tree.name, hn] at hname
    rw [Tree.parent, hn] at hparent
    exact ⟨n, hn, hname, hparent⟩
  · obtain ⟨p, hp, hlt'⟩ := hw.parent i hi hlt
    refine ⟨p, hp, hlt', ?_, fun q hq hm => ?_⟩
    · exact List.count_eq_one_of_mem (hw.nodup_children p) ((hw.mem_children p i).2 hp)
    · rw [(hw.mem_children q i).1 hm] at hp
      cases hp
      exact hq rfl
  · have hp := (hw.mem_children p c).1 hc
    exact ⟨hw.parent_lt hp, lt_size_of_parent hp⟩
  · exact List.pairwise_map.2 (hw.children_name p)

/-- A run with an empty name, a failing string and a label on a path that comes later. -/
def arenaRun : Tree :=
  ((((Tree.empty.after (.resolve 0 "a..b".toList)).after (.setFilter 2 "k".toList [])).after
    (.parseField "c(".toList)).after (.parseFields ["a(b.c as x),d".toList, "(".toList])).after
    (.setAlias 0 [])

theorem Reachable.arena_arenaRun :
    Reachable arenaRun ∧ arenaRun.size = 7 ∧ arenaRun.children 0 = [1, 6] ∧
      ∃ p, arenaRun.parent 5 = some p ∧ p < 5 ∧ (arenaRun.children p).count 5 = 1 ∧
        ∀ q, q ≠ p → 5 ∉ arenaRun.children q := by
  have h : Reachable arenaRun := by
    refine .after (.after (.after (.after (.after .empty _ ?_) _ ?_) _ ?_) _ ?_) _ ?_
    · change 0 < Tree.size _
      decide +kernel
    · change 2 < Tree.size _
      decide +kernel
    · trivial
    · trivial
    · change 0 < Tree.size _
      decide +kernel
  exact ⟨h, by decide +kernel, by decide +kernel, (h.arena.2.2.1 5 (by decide) (by decide +kernel)).2⟩

end QueryShorthand.Tree
