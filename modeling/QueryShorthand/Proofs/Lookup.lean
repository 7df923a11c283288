import Mathlib.Data.List.Induction
import QueryShorthand.Proofs.Paths

/-! Looking down and climbing up. A dotted path leads from a node down to another exactly
when the parent links lead back, past nodes whose names spell the path. -/

namespace QueryShorthand.Tree
set_option autoImplicit false

/-- Parent links lead from the first node up to the second. The names of the nodes that are
left on the way are listed from the highest to the lowest. -/
inductive Climbs (t : Tree) : Nat → Nat → Path → Prop where
  | here (i : Nat) : Climbs t i i []
  | up {i p n : Nat} {s : Text} {names : Path} (hp : t.parent i = some p) (hs : t.name i = some s)
      (h : Climbs t p n names) : Climbs t i n (names ++ [s])

theorem Climbs.lt_size {t : Tree} {i n : Nat} {names : Path} (h : t.Climbs i n names)
    (hn : n < t.size) : i < t.size := by
  cases h with
  | here => exact hn
  | up _ hs _ => exact lt_size_of_name hs

theorem climbs_nil_iff {t : Tree} {i n : Nat} : t.Climbs i n [] ↔ i = n := by
  constructor
  · intro h
    generalize hnames : ([] : Path) = names at h
    cases h with
    | here => rfl
    | up => simp at hnames
  · rintro rfl
    exact .here i

theorem climbs_concat_iff {t : Tree} {i n : Nat} {s : Text} {names : Path} :
    t.Climbs i n (names ++ [s]) ↔
      ∃ p, t.parent i = some p ∧ t.name i = some s ∧ t.Climbs p n names := by
  constructor
  · intro h
    generalize hnames : names ++ [s] = names' at h
    cases h with
    | here => simp at hnames
    | up hp hs h =>
      obtain ⟨rfl, hs'⟩ := List.append_inj' hnames rfl
      cases hs'
      exact ⟨_, hp, hs, h⟩
  · rintro ⟨p, hp, hs, h⟩
    exact .up hp hs h

namespace WellFormed
variable {t : Tree} (h : t.WellFormed)
include h

theorem child_eq_some_iff {p c : Nat} {s : Text} :
    t.child p s = some c ↔ t.parent c = some p ∧ t.name c = some s := by
  constructor
  · intro hc
    obtain ⟨hmem, hname⟩ := child_eq_some hc
    exact ⟨(h.mem_children p c).1 hmem, hname⟩
  · rintro ⟨hp, hs⟩
    have hmem := (h.mem_children p c).2 hp
    cases hfound : t.child p s with
    | none =>
      have hnone := List.find?_eq_none.1 hfound c hmem
      rw [hs] at hnone
      exact absurd (beq_self_eq_true (some s)) hnone
    | some d =>
      obtain ⟨hmem', hname'⟩ := child_eq_some hfound
      have hd := (h.mem_children p d).1 hmem'
      rw [h.eq_of_parent_of_name hd hp (hname'.trans hs.symm)]

theorem dot_not_mem_name {i : Nat} {s : Text} (hs : t.name i = some s) : '.' ∉ s := by
  have hi : 0 < i := by
    apply Nat.pos_of_ne_zero
    rintro rfl
    rw [show t.name 0 = none from h.root_name] at hs
    cases hs
  obtain ⟨s', hs', hdot⟩ := h.name i hi (lt_size_of_name hs)
  rw [hs] at hs'
  cases hs'
  exact hdot

theorem dot_not_mem_of_climbs {i n : Nat} {names : Path} (hc : t.Climbs i n names) :
    ∀ s ∈ names, '.' ∉ s := by
  induction hc with
  | here => simp
  | up hp hs _ ih =>
    intro s hmem
    rcases List.mem_append.1 hmem with hmem | hmem
    · exact ih s hmem
    · rw [List.mem_singleton.1 hmem]
      exact h.dot_not_mem_name hs

theorem le_of_climbs {i n : Nat} {names : Path} (hc : t.Climbs i n names) :
    n + names.length ≤ i := by
  induction hc with
  | here => exact Nat.le_refl _
  | up hp _ _ ih =>
    have hlt := h.parent_lt hp
    rw [List.length_append, List.length_singleton]
    omega

/-- The way up to the root is the node's path. -/
theorem climbs_root_iff {i : Nat} (hi : i < t.size) {names : Path} :
    t.Climbs i root names ↔ names = t.path i := by
  induction i using Nat.strongRecOn generalizing names with
  | ind i ih =>
    rcases Nat.eq_zero_or_pos i with rfl | hpos
    · rw [show t.path 0 = [] from h.path_root]
      constructor
      · intro hc
        have hle := h.le_of_climbs hc
        exact List.eq_nil_of_length_eq_zero (by omega)
      · rintro rfl
        exact .here root
    · obtain ⟨p, s, hpi, hp, hs, hpath⟩ := h.exists_parent hpos hi
      have hup := fun names' => @ih p hpi (Nat.lt_trans hpi hi) names'
      rw [hpath]
      constructor
      · intro hc
        cases hc with
        | here => exact absurd hpos (Nat.lt_irrefl 0)
        | up hp' hs' hc' =>
          cases hp.symm.trans hp'
          cases hs.symm.trans hs'
          rw [(hup _).1 hc']
      · rintro rfl
        exact .up hp hs ((hup _).2 rfl)

/-- A node whose path goes on behind the path of another lies below it. -/
theorem climbs_of_path {i n : Nat} (hi : i < t.size) (hn : n < t.size) {names : Path}
    (hpath : t.path i = t.path n ++ names) : t.Climbs i n names := by
  induction names using List.reverseRecOn generalizing i with
  | nil =>
    rw [List.append_nil] at hpath
    exact climbs_nil_iff.2 (h.path_inj hi hn hpath)
  | append_singleton names s ih =>
    rw [← List.append_assoc] at hpath
    have hpos : 0 < i := h.pos_of_path_ne_nil (by simp [hpath])
    obtain ⟨p, s', hpi, hp, hs, hpath'⟩ := h.exists_parent hpos hi
    obtain ⟨hup, hlast⟩ := List.append_inj' (hpath'.symm.trans hpath) rfl
    cases hlast
    exact climbs_concat_iff.2 ⟨p, hp, hs, ih (Nat.lt_trans hpi hi) hup⟩

/-- By induction from the lower end, where both ways take or leave the same node. -/
theorem foldlM_child_eq_some_iff {n i : Nat} {names : Path} :
    names.foldlM t.child n = some i ↔ t.Climbs i n names := by
  induction names using List.reverseRecOn generalizing i with
  | nil =>
    rw [climbs_nil_iff]
    exact ⟨fun he => (Option.some.inj he).symm, fun he => congrArg some he.symm⟩
  | append_singleton names s ih =>
    rw [climbs_concat_iff, List.foldlM_append]
    constructor
    · intro hfold
      obtain ⟨p, hp, hc⟩ := Option.bind_eq_some_iff.1 hfold
      rw [List.foldlM_cons] at hc
      obtain ⟨c, hc, he⟩ := Option.bind_eq_some_iff.1 hc
      cases he
      obtain ⟨hparent, hname⟩ := h.child_eq_some_iff.1 hc
      exact ⟨p, hparent, hname, ih.1 hp⟩
    · rintro ⟨p, hparent, hname, hc⟩
      refine Option.bind_eq_some_iff.2 ⟨p, ih.2 hc, ?_⟩
      rw [List.foldlM_cons, h.child_eq_some_iff.2 ⟨hparent, hname⟩]
      rfl

theorem lookup_eq_some_iff {n i : Nat} {q : Text} :
    t.lookup n q = some i ↔
      ∃ names, names ≠ [] ∧ t.Climbs i n names ∧ ['.'].intercalate names = q := by
  rw [lookup, h.foldlM_child_eq_some_iff]
  constructor
  · intro hc
    exact ⟨_, pieces_ne_nil '.' q, hc, intercalate_pieces '.' q⟩
  · rintro ⟨names, hne, hc, rfl⟩
    rwa [pieces_intercalate hne (h.dot_not_mem_of_climbs hc)]

theorem lookup_root_iff {i : Nat} (hpos : 0 < i) (hi : i < t.size) {q : Text} :
    t.lookup root q = some i ↔ q = ['.'].intercalate (t.path i) := by
  rw [h.lookup_eq_some_iff]
  constructor
  · rintro ⟨names, -, hc, rfl⟩
    rw [(h.climbs_root_iff hi).1 hc]
  · rintro rfl
    exact ⟨t.path i, h.path_ne_nil hpos hi, (h.climbs_root_iff hi).2 rfl, rfl⟩

end WellFormed

/-- Every node lies below the root. What a dotted path finds is what climbing back by its
names leaves, so a node other than the root is found from there by one path, no two nodes
have one path, and no path leads from a node to itself. -/
theorem Reachable.lookup_iff_climbs {t : Tree} (h : Reachable t) :
    (∀ i, i < t.size → ∃ names, t.Climbs i root names) ∧
      (∀ n i q, t.lookup n q = some i ↔
        ∃ names, names ≠ [] ∧ t.Climbs i n names ∧ ['.'].intercalate names = q) ∧
      (∀ i, 0 < i → i < t.size → ∃! q, t.lookup root q = some i) ∧
      (∀ i j names, t.Climbs i root names → t.Climbs j root names → i = j) ∧
      ∀ n q, t.lookup n q ≠ some n := by
  have hw := h.wellFormed
  refine ⟨fun i hi => ?_, fun n i q => hw.lookup_eq_some_iff, fun i hpos hi => ?_,
    fun i j names hi hj => ?_, fun n q hself => ?_⟩
  · exact ⟨t.path i, (hw.climbs_root_iff hi).2 rfl⟩
  · refine ⟨_, (hw.lookup_root_iff hpos hi).2 rfl, fun q hq => ?_⟩
    exact (hw.lookup_root_iff hpos hi).1 hq
  · have hdown := hw.foldlM_child_eq_some_iff.2 hi
    rw [hw.foldlM_child_eq_some_iff.2 hj] at hdown
    exact (Option.some.inj hdown).symm
  · obtain ⟨names, hne, hc, -⟩ := hw.lookup_eq_some_iff.1 hself
    have hle := hw.le_of_climbs hc
    have hlen := List.length_pos_iff.2 hne
    omega

/-- Two names are empty, and one field is the target of an alias. -/
def emptyNames : Tree :=
  (Tree.empty.after (.resolve 0 "a..".toList)).after (.parseField "a(b.c as x),d".toList)

theorem Reachable.lookup_iff_climbs_emptyNames :
    Reachable emptyNames ∧ emptyNames.lookup 1 ".".toList = some 3 ∧
      (∃ names, names ≠ [] ∧ emptyNames.Climbs 3 1 names ∧
        ['.'].intercalate names = ".".toList) ∧
      ∃! q, emptyNames.lookup root q = some 5 := by
  have h : Reachable emptyNames := by
    refine .after (.after .empty _ ?_) _ trivial
    change 0 < Tree.size _
    decide
  have hlookup : emptyNames.lookup 1 ".".toList = some 3 := by decide +kernel
  obtain ⟨-, hclimbs, hunique, -⟩ := h.lookup_iff_climbs
  exact ⟨h, hlookup, (hclimbs 1 3 _).1 hlookup, hunique 5 (by decide) (by decide +kernel)⟩

end QueryShorthand.Tree
