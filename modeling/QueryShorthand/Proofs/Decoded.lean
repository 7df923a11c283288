import Mathlib.Data.List.Basic
import QueryShorthand.Json.Reader

/-! The values that JSON can stand for: numbers that some literal stands for, objects ordered by
key, arrays and objects not nested beyond the limit. -/

namespace QueryShorthand.Json
set_option autoImplicit false

/-! Members ordered by key -/

abbrev Ordered (members : List (Text × Value)) : Prop := members.Pairwise fun m n => m.1 < n.1

section
variable {key k : Text} {v : Value} {m : Text × Value} {members acc : List (Text × Value)}

theorem mem_of_mem_insertMember (h : m ∈ insertMember key v members) :
    m = (key, v) ∨ m ∈ members := by
  induction members with
  | nil => exact Or.inl (List.mem_singleton.1 h)
  | cons head rest ih =>
    obtain ⟨k, w⟩ := head
    unfold insertMember at h
    split at h
    · exact (List.mem_cons.1 h).imp_right (List.mem_cons_of_mem _)
    · split at h
      · exact List.mem_cons.1 h
      · rcases List.mem_cons.1 h with rfl | hrest
        · exact Or.inr List.mem_cons_self
        · exact (ih hrest).imp_right (List.mem_cons_of_mem _)

theorem Ordered.insertMember (h : Ordered members) : Ordered (insertMember key v members) := by
  induction members with
  | nil => exact List.pairwise_singleton _ _
  | cons head rest ih =>
    obtain ⟨k, w⟩ := head
    obtain ⟨hfirst, hrest⟩ := List.pairwise_cons.1 h
    unfold Json.insertMember
    split
    next heq => exact List.pairwise_cons.2 ⟨heq ▸ hfirst, hrest⟩
    next hne =>
      split
      next hlt =>
        refine List.pairwise_cons.2 ⟨fun m hm => ?_, h⟩
        rcases List.mem_cons.1 hm with rfl | hm
        · exact hlt
        · exact List.lt_trans hlt (hfirst m hm)
      next hnlt =>
        refine List.pairwise_cons.2 ⟨fun m hm => ?_, ih hrest⟩
        rcases mem_of_mem_insertMember hm with rfl | hm
        · by_contra hnot
          exact hne (Std.Trichotomous.trichotomous _ _ hnlt hnot)
        · exact hfirst m hm

theorem insertMember_of_forall_lt (h : ∀ m ∈ members, m.1 < key) :
    insertMember key v members = members ++ [(key, v)] := by
  induction members with
  | nil => rfl
  | cons head rest ih =>
    obtain ⟨k, w⟩ := head
    have hk : k < key := h _ List.mem_cons_self
    have hne : key ≠ k := fun heq => List.lt_irrefl k (heq ▸ hk)
    have hnlt : ¬ key < k := fun hlt => List.lt_irrefl k (List.lt_trans hk hlt)
    rw [insertMember, if_neg hne, if_neg hnlt, ih fun m hm => h m (List.mem_cons_of_mem _ hm),
      List.cons_append]

/-- The members put in their places one after the other. -/
def insertAll (acc members : List (Text × Value)) : List (Text × Value) :=
  members.foldl (fun ms (key, v) => insertMember key v ms) acc

theorem insertAll_cons : insertAll acc ((key, v) :: members) =
    insertAll (insertMember key v acc) members := rfl

theorem mem_of_mem_insertAll (h : m ∈ insertAll acc members) : m ∈ acc ∨ m ∈ members := by
  induction members generalizing acc with
  | nil => exact Or.inl h
  | cons head rest ih =>
    obtain ⟨k, w⟩ := head
    rw [insertAll_cons] at h
    rcases ih h with hacc | hrest
    · rcases mem_of_mem_insertMember hacc with rfl | hacc
      · exact Or.inr List.mem_cons_self
      · exact Or.inl hacc
    · exact Or.inr (List.mem_cons_of_mem _ hrest)

theorem Ordered.insertAll (h : Ordered acc) : Ordered (insertAll acc members) := by
  induction members generalizing acc with
  | nil => exact h
  | cons head rest ih =>
    obtain ⟨k, w⟩ := head
    rw [insertAll_cons]
    exact ih h.insertMember

theorem insertAll_of_ordered (h : Ordered (acc ++ members)) :
    insertAll acc members = acc ++ members := by
  induction members generalizing acc with
  | nil => exact (List.append_nil acc).symm
  | cons head rest ih =>
    obtain ⟨k, w⟩ := head
    have hlast : ∀ m ∈ acc, m.1 < k := by
      intro m hm
      exact (List.pairwise_append.1 h).2.2 m hm (k, w) List.mem_cons_self
    have happend : acc ++ (k, w) :: rest = (acc ++ [(k, w)]) ++ rest := by simp
    rw [insertAll_cons, insertMember_of_forall_lt hlast, happend]
    exact ih (happend ▸ h)

theorem Value.ofMembers_eq : ofMembers members = .object (insertAll [] members) := rfl

/-- Of members ordered by key, those under one key are what is found under it. -/
theorem Ordered.lookup_eq_some_iff (h : Ordered members) :
    members.lookup key = some v ↔ (key, v) ∈ members := by
  induction members with
  | nil => simp
  | cons head rest ih =>
    obtain ⟨k, w⟩ := head
    obtain ⟨hfirst, hrest⟩ := List.pairwise_cons.1 h
    rw [List.lookup_cons, List.mem_cons, Prod.mk.injEq]
    cases hkey : key == k with
    | true =>
      obtain rfl := eq_of_beq hkey
      have habsent : (key, v) ∉ rest := fun hm => List.lt_irrefl key (hfirst _ hm)
      simp [habsent, eq_comm]
    | false =>
      have hne : key ≠ k := ne_of_beq_false hkey
      simp [hne, ih hrest]

theorem lookup_cons_eq_ite :
    ((key, v) :: members).lookup k = if k = key then some v else members.lookup k := by
  rw [List.lookup_cons]
  by_cases hk : k = key
  · simp [hk]
  · rw [beq_eq_false_iff_ne.2 hk, if_neg hk]

theorem lookup_insertMember :
    (insertMember key v members).lookup k = if k = key then some v else members.lookup k := by
  induction members with
  | nil => exact lookup_cons_eq_ite
  | cons head rest ih =>
    obtain ⟨key', w⟩ := head
    unfold insertMember
    split
    next heq =>
      rw [lookup_cons_eq_ite, lookup_cons_eq_ite, heq]
      split <;> rfl
    next hne =>
      split
      next => exact lookup_cons_eq_ite
      next =>
        rw [lookup_cons_eq_ite, ih, lookup_cons_eq_ite]
        by_cases hk : k = key'
        · rw [if_pos hk, if_pos hk, if_neg (hk ▸ Ne.symm hne)]
        · rw [if_neg hk, if_neg hk]

theorem lookup_insertAll :
    (insertAll acc members).lookup k = (members.reverse.lookup k).or (acc.lookup k) := by
  induction members generalizing acc with
  | nil => rfl
  | cons head rest ih =>
    obtain ⟨key, v⟩ := head
    have hone : (insertMember key v acc).lookup k = ([(key, v)].lookup k).or (acc.lookup k) := by
      rw [lookup_insertMember, lookup_cons_eq_ite]
      split <;> rfl
    rw [insertAll_cons, ih, hone, List.reverse_cons, List.lookup_append, Option.or_assoc]

theorem Ordered.nodup (h : Ordered members) : members.Nodup := by
  refine h.imp fun {m n} hlt he => ?_
  rw [he] at hlt
  exact List.lt_irrefl n.1 hlt

/-- Members ordered by key are determined by what is found under each key. -/
theorem Ordered.ext {members' : List (Text × Value)} (h : Ordered members) (h' : Ordered members')
    (hlookup : ∀ key, members.lookup key = members'.lookup key) : members = members' := by
  have hmem : ∀ m : Text × Value, m ∈ members ↔ m ∈ members' := by
    rintro ⟨key, v⟩
    rw [← h.lookup_eq_some_iff, ← h'.lookup_eq_some_iff, hlookup]
  refine List.Perm.eq_of_pairwise (fun m n _ _ hlt hgt => ?_) h h'
    ((List.perm_ext_iff_of_nodup h.nodup h'.nodup).2 hmem)
  exact absurd (List.lt_trans hlt hgt) (List.lt_irrefl m.1)

end

/-! What fits a depth -/

/-- A number that can be written. -/
def Number.Readable (n : Number) : Prop := ∃ l : Literal, l.value = some n

inductive Fits : Nat → Value → Prop
  | null {depth : Nat} : Fits depth .null
  | bool {depth : Nat} {b : Bool} : Fits depth (.bool b)
  | number {depth : Nat} {n : Number} (readable : n.Readable) : Fits depth (.number n)
  | string {depth : Nat} {s : Text} : Fits depth (.string s)
  | array {depth : Nat} {vs : List Value} (items : ∀ v ∈ vs, Fits depth v) :
      Fits (depth + 1) (.array vs)
  | object {depth : Nat} {members : List (Text × Value)} (ordered : Ordered members)
      (values : ∀ m ∈ members, Fits depth m.2) : Fits (depth + 1) (.object members)

theorem Fits.succ {depth : Nat} {v : Value} (h : Fits depth v) : Fits (depth + 1) v := by
  induction h with
  | null => exact .null
  | bool => exact .bool
  | number readable => exact .number readable
  | string => exact .string
  | array _ ih => exact .array ih
  | object ordered _ ih => exact .object ordered ih

theorem Fits.ofMembers {depth : Nat} {members : List (Text × Value)}
    (h : ∀ m ∈ members, Fits depth m.2) : Fits (depth + 1) (.ofMembers members) := by
  rw [Value.ofMembers_eq]
  refine .object (Ordered.insertAll .nil) fun m hm => ?_
  rcases mem_of_mem_insertAll hm with hnil | hmember
  · cases hnil
  · exact h m hmember

/-- The value is an object with this member, not one inside of which there is such an object. -/
def Value.Has (v : Value) (key : Text) (w : Value) : Prop :=
  ∃ members, v = .object members ∧ (key, w) ∈ members

section
variable {depth : Nat} {v w : Value} {key : Text}

theorem Fits.member?_eq_some_iff (h : Fits depth v) : v.member? key = some w ↔ v.Has key w := by
  cases h with
  | object ordered _ =>
    rw [Value.member?, ordered.lookup_eq_some_iff]
    constructor
    · exact fun hm => ⟨_, rfl, hm⟩
    · rintro ⟨members, he, hm⟩
      cases he
      exact hm
  | _ => simp [Value.member?, Value.Has]

theorem Fits.of_has (h : Fits depth v) (hw : v.Has key w) : Fits depth w := by
  obtain ⟨members, rfl, hm⟩ := hw
  cases h with
  | object _ values => exact (values _ hm).succ

theorem Fits.of_mem {vs : List Value} (h : Fits depth (.array vs)) (hv : v ∈ vs) : Fits depth v := by
  cases h with
  | array items => exact (items v hv).succ

end

end QueryShorthand.Json
