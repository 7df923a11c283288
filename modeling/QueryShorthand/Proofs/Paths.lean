import Mathlib.Data.List.Sort
import QueryShorthand.Proofs.WellFormed

/-! The path of a node: the names from the root down to it, read off the parent links.
In a well-formed tree no two nodes share a path, and going to a child appends its name. -/

namespace QueryShorthand
set_option autoImplicit false

abbrev Path := List Text

namespace Tree

def path (t : Tree) (i : Nat) : Path :=
  match t.parent i with
  | none => []
  | some p => if p < i then t.path p ++ [(t.name i).getD []] else []
termination_by i

theorem path_congr {t u : Tree} {i : Nat}
    (h : ∀ j, j ≤ i → t.parent j = u.parent j ∧ t.name j = u.name j) : t.path i = u.path i := by
  induction i using Nat.strongRecOn with
  | ind i ih =>
    obtain ⟨hparent, hname⟩ := h i (Nat.le_refl i)
    rw [path, path, hparent, hname]
    split
    · rfl
    · rename_i p hp
      split
      · rename_i hlt
        rw [ih p hlt fun j hj => h j (by omega)]
      · rfl

@[simp] theorem path_setFilter (t : Tree) (id : Nat) (key value : Text) :
    (t.setFilter id key value).path = t.path :=
  funext fun _ => path_congr (by simp)

@[simp] theorem path_setAlias (t : Tree) (id : Nat) (s : Text) : (t.setAlias id s).path = t.path :=
  funext fun _ => path_congr (by simp)

theorem path_push_of_lt {t : Tree} {id : Nat} (h : id < t.size) (s : Text) {i : Nat}
    (hi : i < t.size) : (t.push id s).path i = t.path i := by
  refine path_congr fun j hj => ?_
  have hne : j ≠ t.size := by omega
  rw [parent_push h, name_push h, if_neg hne, if_neg hne]
  exact ⟨rfl, rfl⟩

theorem path_push_size {t : Tree} {id : Nat} (h : id < t.size) (s : Text) :
    (t.push id s).path t.size = t.path id ++ [s] := by
  rw [path, parent_push h, name_push h, if_pos rfl, if_pos rfl]
  simp only [h, if_true, Option.getD_some]
  rw [path_push_of_lt h s h]

namespace WellFormed
variable {t : Tree} (h : t.WellFormed)
include h

theorem path_root : t.path root = [] := by
  rw [path, h.root_parent]

theorem path_of_parent {i p : Nat} {s : Text} (hp : t.parent i = some p) (hs : t.name i = some s) :
    t.path i = t.path p ++ [s] := by
  rw [path, hp, hs]
  simp [h.parent_lt hp]

theorem exists_parent {i : Nat} (hi : 0 < i) (hlt : i < t.size) :
    ∃ p s, p < i ∧ t.parent i = some p ∧ t.name i = some s ∧ t.path i = t.path p ++ [s] := by
  obtain ⟨p, hp, hpi⟩ := h.parent i hi hlt
  obtain ⟨s, hs, -⟩ := h.name i hi hlt
  exact ⟨p, s, hpi, hp, hs, h.path_of_parent hp hs⟩

theorem path_ne_nil {i : Nat} (hi : 0 < i) (hlt : i < t.size) : t.path i ≠ [] := by
  obtain ⟨p, s, -, -, -, hpath⟩ := h.exists_parent hi hlt
  simp [hpath]

theorem pos_of_path_ne_nil {i : Nat} (hne : t.path i ≠ []) : 0 < i := by
  apply Nat.pos_of_ne_zero
  intro hzero
  subst hzero
  exact hne h.path_root

theorem eq_of_parent_of_name {c d p : Nat} (hc : t.parent c = some p) (hd : t.parent d = some p)
    (hname : t.name c = t.name d) : c = d := by
  have hnodup : ((t.children p).map t.name).Nodup := List.pairwise_map.2 (h.children_name p)
  exact List.inj_on_of_nodup_map hnodup ((h.mem_children p c).2 hc) ((h.mem_children p d).2 hd) hname

theorem path_inj {i j : Nat} (hi : i < t.size) (hj : j < t.size) (he : t.path i = t.path j) :
    i = j := by
  induction i using Nat.strongRecOn generalizing j with
  | ind i ih =>
    rcases Nat.eq_zero_or_pos i with rfl | hi0
    · rcases Nat.eq_zero_or_pos j with rfl | hj0
      · rfl
      · exact absurd (he.symm.trans h.path_root) (h.path_ne_nil hj0 hj)
    · rcases Nat.eq_zero_or_pos j with rfl | hj0
      · exact absurd (he.trans h.path_root) (h.path_ne_nil hi0 hi)
      · obtain ⟨p, s, hpi, hp, hs, hpath⟩ := h.exists_parent hi0 hi
        obtain ⟨q, s', hqj, hq, hs', hpath'⟩ := h.exists_parent hj0 hj
        rw [hpath, hpath'] at he
        obtain ⟨he, hname⟩ := List.append_inj' he rfl
        cases ih p hpi (by omega) (by omega) he
        cases hname
        exact h.eq_of_parent_of_name hp hq (hs.trans hs'.symm)

theorem exists_of_prefix {i : Nat} (hi : i < t.size) {p : Path} (hp : p <+: t.path i) :
    ∃ j, j < t.size ∧ t.path j = p := by
  induction i using Nat.strongRecOn with
  | ind i ih =>
    rcases Nat.eq_zero_or_pos i with rfl | hi0
    · rw [show t.path 0 = [] from h.path_root, List.prefix_nil] at hp
      exact ⟨0, hi, h.path_root.trans hp.symm⟩
    · obtain ⟨q, s, hqi, -, -, hpath⟩ := h.exists_parent hi0 hi
      rw [hpath, List.prefix_concat_iff] at hp
      rcases hp with rfl | hp
      · exact ⟨i, hi, hpath⟩
      · exact ih q hqi (by omega) hp

theorem path_child {id c : Nat} {s : Text} (hc : t.child id s = some c) :
    c < t.size ∧ t.path c = t.path id ++ [s] := by
  obtain ⟨hmem, hname⟩ := child_eq_some hc
  exact ⟨lt_size_of_name hname, h.path_of_parent ((h.mem_children id c).1 hmem) hname⟩

theorem child_path {i c : Nat} (hc : c ∈ t.children i) :
    0 < c ∧ c < t.size ∧ ∃ s, t.path c = t.path i ++ [s] := by
  have hparent := (h.mem_children i c).1 hc
  have hpos : 0 < c := Nat.zero_lt_of_lt (h.parent_lt hparent)
  have hlt := lt_size_of_parent hparent
  obtain ⟨s, hs, -⟩ := h.name c hpos hlt
  exact ⟨hpos, hlt, s, h.path_of_parent hparent hs⟩

theorem name_parent_of_path {u : Tree} (hu : u.WellFormed) (hsize : t.size = u.size)
    (hpath : ∀ i, i < t.size → t.path i = u.path i) {i : Nat} (hi : i < t.size) :
    t.name i = u.name i ∧ t.parent i = u.parent i := by
  rcases Nat.eq_zero_or_pos i with rfl | hpos
  · exact ⟨h.root_name.trans hu.root_name.symm, h.root_parent.trans hu.root_parent.symm⟩
  · obtain ⟨p, s, hpi, hp, hs, hpt⟩ := h.exists_parent hpos hi
    obtain ⟨q, s', hqi, hq, hs', hpu⟩ := hu.exists_parent hpos (hsize ▸ hi)
    have he := hpath i hi
    rw [hpt, hpu, hpath p (Nat.lt_trans hpi hi)] at he
    obtain ⟨hup, hlast⟩ := List.append_inj' he rfl
    have hpq : p = q := hu.path_inj (by omega) (by omega) hup
    refine ⟨?_, ?_⟩
    · rw [hs, hs', List.singleton_inj.1 hlast]
    · rw [hp, hq, hpq]

/-- A well-formed tree is determined by the paths of its nodes, in the order of their creation,
and by their labels. -/
theorem eq_of_path {u : Tree} (hu : u.WellFormed) (hsize : t.size = u.size)
    (hpath : ∀ i, i < t.size → t.path i = u.path i)
    (halias : ∀ i, i < t.size → t.aliasName i = u.aliasName i)
    (hfilters : ∀ i, i < t.size → t.filters i = u.filters i) : t = u := by
  have hparent (c p : Nat) : t.parent c = some p ↔ u.parent c = some p := by
    constructor
    · intro hp
      rwa [← (h.name_parent_of_path hu hsize hpath (lt_size_of_parent hp)).2]
    · intro hp
      rwa [(h.name_parent_of_path hu hsize hpath (hsize ▸ lt_size_of_parent hp)).2]
  refine ext_views hsize fun i hi => ?_
  obtain ⟨hname, hup⟩ := h.name_parent_of_path hu hsize hpath hi
  refine ⟨hname, hup, ?_, halias i hi, hfilters i hi⟩
  refine (h.children_lt i).eq_of_mem_iff (hu.children_lt i) fun c => ?_
  rw [h.mem_children, hu.mem_children, hparent]

end WellFormed

/-- The node of `here` is at `goal`, in a tree that has grown from `t` by nothing but fields
on the way there. -/
structure Grows (t : Tree) (goal : Path) (here : Tree × Nat) : Prop where
  wellFormed : here.1.WellFormed
  lt_size : here.2 < here.1.size
  arrived : here.1.path here.2 = goal
  size_le : t.size ≤ here.1.size
  path : ∀ i, i < t.size → here.1.path i = t.path i
  fresh : ∀ i, t.size ≤ i → i < here.1.size → here.1.path i <+: goal

theorem Grows.refl {t : Tree} (h : t.WellFormed) {id : Nat} (hid : id < t.size) :
    t.Grows (t.path id) (t, id) := by
  refine ⟨h, hid, rfl, Nat.le_refl _, fun _ _ => rfl, fun i hle hlt => ?_⟩
  exact absurd hlt (Nat.not_lt.2 hle)

theorem Grows.trans {t : Tree} {goal rest : Path} {here there : Tree × Nat}
    (h : t.Grows goal here) (h' : here.1.Grows (goal ++ rest) there) :
    t.Grows (goal ++ rest) there := by
  refine ⟨h'.wellFormed, h'.lt_size, h'.arrived, Nat.le_trans h.size_le h'.size_le, ?_, ?_⟩
  · intro i hi
    rw [h'.path i (Nat.lt_of_lt_of_le hi h.size_le), h.path i hi]
  · intro i hle hlt
    by_cases hi : i < here.1.size
    · rw [h'.path i hi]
      exact (h.fresh i hle hi).trans (List.prefix_append goal rest)
    · exact h'.fresh i (Nat.le_of_not_lt hi) hlt

theorem WellFormed.grows_enter {t : Tree} (h : t.WellFormed) {id : Nat} {s : Text}
    (hid : id < t.size) (hdot : '.' ∉ s) : t.Grows (t.path id ++ [s]) (t.enter id s) := by
  unfold enter
  split
  · rename_i c hc
    obtain ⟨hlt, hpath⟩ := h.path_child hc
    exact hpath ▸ .refl h hlt
  · rename_i hnew
    refine ⟨h.push hid hdot hnew, by simp, path_push_size hid s, by simp,
      fun i => path_push_of_lt hid s, fun i hle hlt => ?_⟩
    rw [size_push] at hlt
    have hi : i = t.size := by omega
    subst hi
    exact path_push_size hid s ▸ List.prefix_rfl

theorem WellFormed.grows_resolve {t : Tree} (h : t.WellFormed) {id : Nat} (hid : id < t.size)
    (target : Text) : t.Grows (t.path id ++ pieces '.' target) (t.resolve id target) := by
  have hdot : ∀ s ∈ pieces '.' target, '.' ∉ s := fun _ => not_mem_of_mem_pieces
  unfold resolve
  generalize pieces '.' target = names at hdot
  induction names generalizing t id with
  | nil => simpa using Grows.refl h hid
  | cons s names ih =>
    have hstep := h.grows_enter hid (hdot s (by simp))
    have hrest := ih hstep.wellFormed hstep.lt_size fun s' hs' => hdot s' (by simp [hs'])
    rw [hstep.arrived] at hrest
    rw [List.append_cons]
    exact hstep.trans hrest

/-! Labels are only changed where they are written. -/

theorem labels_enter {t : Tree} {id : Nat} (h : id < t.size) (s : Text) :
    (t.enter id s).1.aliasName = t.aliasName ∧ (t.enter id s).1.filters = t.filters := by
  unfold enter
  split
  · exact ⟨rfl, rfl⟩
  · exact ⟨aliasName_push h s, filters_push h s⟩

theorem labels_resolve {t : Tree} {id : Nat} (h : id < t.size) (target : Text) :
    (t.resolve id target).1.aliasName = t.aliasName ∧
      (t.resolve id target).1.filters = t.filters := by
  have hdot : ∀ s ∈ pieces '.' target, '.' ∉ s := fun _ => not_mem_of_mem_pieces
  unfold resolve
  generalize pieces '.' target = names at hdot
  induction names generalizing t id with
  | nil => exact ⟨rfl, rfl⟩
  | cons s names ih =>
    obtain ⟨halias, hfilters⟩ := labels_enter h s
    have hlt := (leadsTo_enter h (hdot s (by simp))).2
    obtain ⟨halias', hfilters'⟩ := ih hlt fun s' hs' => hdot s' (by simp [hs'])
    exact ⟨halias'.trans halias, hfilters'.trans hfilters⟩

end Tree

end QueryShorthand
