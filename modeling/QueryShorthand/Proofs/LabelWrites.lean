import QueryShorthand.Proofs.Resolution
import QueryShorthand.Proofs.Writes

/-! Labels and the shape of a tree have nothing to do with each other. A label can be written
before or after a path is followed, and nothing is found that was not found before. Two labels
can be written in either order, except where the later one takes the place of the earlier or two
new keys come to one node. -/

namespace QueryShorthand
set_option autoImplicit false

/-- Where in a node a label is written. -/
inductive Slot where
  | aliasName
  | filter (key : Text)
  deriving DecidableEq

structure LabelWrite where
  id : Nat
  slot : Slot
  text : Text
  deriving DecidableEq

/-- Two slots of one node are filled alike in either order; `keys` are the keys it has. Of two
keys one has to be there, as new keys stand in the order in which they come. -/
def Slot.Apart (keys : List Text) : Slot → Slot → Prop
  | .filter key, .filter key' => key ≠ key' ∧ (key ∈ keys ∨ key' ∈ keys)
  | .filter _, .aliasName | .aliasName, .filter _ => True
  | .aliasName, .aliasName => False

/-- What the write makes of the node it goes to. -/
def LabelWrite.mark (w : LabelWrite) (n : Node) : Node :=
  match w.slot with
  | .aliasName => { n with aliasName := some w.text }
  | .filter key => { n with filters := n.filters.put key w.text }

def Tree.write (t : Tree) (w : LabelWrite) : Tree :=
  match w.slot with
  | .aliasName => t.setAlias w.id w.text
  | .filter key => t.setFilter w.id key w.text

/-! Writes to one node -/

namespace Filters
variable {fs : Filters} {k k' v v' : Text}

theorem put_put_self (k v v' : Text) (fs : Filters) : put k v' (put k v fs) = put k v' fs := by
  induction fs with
  | nil => simp [put]
  | cons e fs ih =>
    obtain ⟨key, value⟩ := e
    by_cases hkey : key = k
    · simp [put, hkey]
    · simp [put, hkey, ih]

theorem put_put_comm (hne : k ≠ k') (h : k ∈ keys fs ∨ k' ∈ keys fs) :
    put k' v' (put k v fs) = put k v (put k' v' fs) := by
  induction fs with
  | nil => simp at h
  | cons e fs ih =>
    obtain ⟨key, value⟩ := e
    by_cases hk : key = k
    · subst hk
      simp [put, hne]
    · by_cases hk' : key = k'
      · subst hk'
        simp [put, hk]
      · have hrest : k ∈ keys fs ∨ k' ∈ keys fs := by
          simpa [Ne.symm hk, Ne.symm hk'] using h
        simp [put, hk, hk', ih hrest]

theorem put_put_comm_iff :
    put k' v' (put k v fs) = put k v (put k' v' fs) ↔
      (k ≠ k' ∧ (k ∈ keys fs ∨ k' ∈ keys fs)) ∨ (k = k' ∧ v = v') := by
  constructor
  · intro h
    by_cases hk : k = k'
    · subst hk
      have hlookup := congrArg (List.lookup k) h
      simp only [put_put_self, lookup_put, if_true, Option.some.injEq] at hlookup
      exact .inr ⟨rfl, hlookup.symm⟩
    · refine .inl ⟨hk, ?_⟩
      by_contra hneither
      obtain ⟨hnot, hnot'⟩ := not_or.1 hneither
      have hnew : k' ∉ keys (put k v fs) := by simp [keys_put_of_not_mem hnot, hnot', Ne.symm hk]
      have hnew' : k ∉ keys (put k' v' fs) := by simp [keys_put_of_not_mem hnot', hnot, hk]
      have hkeys := congrArg keys h
      rw [keys_put_of_not_mem hnew, keys_put_of_not_mem hnew', keys_put_of_not_mem hnot,
        keys_put_of_not_mem hnot'] at hkeys
      simp [Ne.symm hk] at hkeys
  · rintro (⟨hne, h⟩ | ⟨rfl, rfl⟩)
    · exact put_put_comm hne h
    · rfl

end Filters

namespace LabelWrite
variable {w w' : LabelWrite}

theorem mark_mark_self (h : w.slot = w'.slot) (n : Node) : w'.mark (w.mark n) = w'.mark n := by
  unfold mark
  rw [h]
  cases w'.slot with
  | aliasName => rfl
  | filter key => simp [Filters.put_put_self]

theorem mark_comm_iff {n : Node} :
    w'.mark (w.mark n) = w.mark (w'.mark n) ↔
      w.slot.Apart (Filters.keys n.filters) w'.slot ∨ (w.slot = w'.slot ∧ w.text = w'.text) := by
  unfold mark
  cases w.slot with
  | aliasName =>
    cases w'.slot with
    | aliasName => simp [Slot.Apart, eq_comm]
    | filter key => simp [Slot.Apart]
  | filter key =>
    cases w'.slot with
    | aliasName => simp [Slot.Apart]
    | filter key' => simpa [Slot.Apart] using Filters.put_put_comm_iff

theorem mark_addChild (w : LabelWrite) (c : Nat) (n : Node) :
    w.mark (n.addChild c) = (w.mark n).addChild c := by
  unfold mark
  cases w.slot <;> rfl

end LabelWrite

/-! Writes to a tree -/

namespace Tree

theorem ext_node? {t u : Tree} (h : ∀ i, t.node? i = u.node? i) : t = u :=
  congrArg Tree.mk (Array.ext_getElem? h)

theorem modify_modify (t : Tree) (id : Nat) (f g : Node → Node) :
    (t.modify id f).modify id g = t.modify id (g ∘ f) := by
  apply ext_node?
  intro i
  simp only [node?_modify]
  split
  · rw [Option.map_map]
  · rfl

theorem modify_comm (t : Tree) {id id' : Nat} (h : id ≠ id') (f g : Node → Node) :
    (t.modify id f).modify id' g = (t.modify id' g).modify id f := by
  apply ext_node?
  intro i
  simp only [node?_modify]
  by_cases hi : id = i
  · have hi' : id' ≠ i := fun he => h (hi.trans he.symm)
    simp [hi, hi']
  · simp [hi]

theorem modify_eq_iff {t : Tree} {id : Nat} {n : Node} (hn : t.node? id = some n)
    {f g : Node → Node} : t.modify id f = t.modify id g ↔ f n = g n := by
  constructor
  · intro h
    have hnode := congrArg (node? · id) h
    simpa [node?_modify, hn] using hnode
  · intro h
    apply ext_node?
    intro i
    simp only [node?_modify]
    split
    · rename_i hi
      rw [← hi, hn, Option.map_some, Option.map_some, h]
    · rfl

theorem write_eq_modify (t : Tree) (w : LabelWrite) : t.write w = t.modify w.id w.mark := by
  unfold write LabelWrite.mark
  cases w.slot <;> rfl

section
variable (t : Tree) (w : LabelWrite)

@[simp] theorem size_write : (t.write w).size = t.size := by
  rw [write_eq_modify, size_modify]

@[simp] theorem child_write : (t.write w).child = t.child := by
  unfold write
  cases w.slot <;> simp [funext_iff, child]

@[simp] theorem lookup_write : (t.write w).lookup = t.lookup := by
  simp [funext_iff, lookup]

@[simp] theorem parent_write : (t.write w).parent = t.parent := by
  unfold write
  cases w.slot <;> simp

end

section
variable {t : Tree} {w : LabelWrite} (hw : w.id < t.size)
include hw

theorem push_write {id : Nat} (hid : id < t.size) (s : Text) :
    (t.write w).push id s = (t.push id s).write w := by
  apply ext_node?
  intro i
  rw [node?_push (by simpa using hid), size_write, write_eq_modify, write_eq_modify, node?_modify,
    node?_modify, node?_push hid]
  by_cases hi : i = t.size
  · have hne : w.id ≠ i := fun he => Nat.ne_of_lt hw (he.trans hi)
    simp [hi, hi ▸ hne]
  · simp only [if_neg hi]
    split
    · split
      · simp only [Option.map_map]
        exact congrArg (Option.map · _) (funext fun n => (w.mark_addChild t.size n).symm)
      · rfl
    · rfl

theorem enter_write {id : Nat} (hid : id < t.size) (s : Text) :
    (t.write w).enter id s = ((t.enter id s).1.write w, (t.enter id s).2) := by
  unfold enter
  rw [child_write]
  cases t.child id s with
  | some c => rfl
  | none => rw [push_write hw hid, size_write]

theorem resolve_write {id : Nat} (hid : id < t.size) (path : Text) :
    (t.write w).resolve id path = ((t.resolve id path).1.write w, (t.resolve id path).2) := by
  have hdot : ∀ s ∈ pieces '.' path, '.' ∉ s := fun _ => not_mem_of_mem_pieces
  rw [resolve_eq_enterAll, resolve_eq_enterAll]
  generalize pieces '.' path = names at hdot
  induction names generalizing t id with
  | nil => rfl
  | cons s names ih =>
    obtain ⟨hs, hnames⟩ := List.forall_mem_cons.1 hdot
    obtain ⟨hedits, hlt⟩ := leadsTo_enter hid hs
    rw [enterAll_cons, enterAll_cons, enter_write hw hid]
    exact ih (Nat.lt_of_lt_of_le hw hedits.size_le) hlt hnames

theorem write_write_self {w' : LabelWrite} (hid : w.id = w'.id) (hslot : w.slot = w'.slot) :
    (t.write w).write w' = t.write w' := by
  obtain ⟨n, hn⟩ := exists_node? hw
  simp only [write_eq_modify, ← hid, modify_modify]
  exact (modify_eq_iff hn).2 (LabelWrite.mark_mark_self hslot n)

theorem write_comm_iff {w' : LabelWrite} :
    (t.write w).write w' = (t.write w').write w ↔
      w.id ≠ w'.id ∨ w.slot.Apart (Filters.keys (t.filters w.id)) w'.slot ∨ w = w' := by
  obtain ⟨n, hn⟩ := exists_node? hw
  have hfilters : t.filters w.id = n.filters := by rw [filters, hn]; rfl
  by_cases hid : w.id = w'.id
  · have hsame : w = w' ↔ w.slot = w'.slot ∧ w.text = w'.text := by
      cases w
      cases w'
      simp_all
    simp only [write_eq_modify, ← hid, modify_modify, modify_eq_iff hn, hfilters, hsame, ne_eq,
      not_true_eq_false, false_or]
    exact LabelWrite.mark_comm_iff
  · simp only [write_eq_modify, modify_comm t hid, ne_eq, hid, not_false_eq_true, true_or]

end

/-- It makes no difference to the tree, to the node that a path leads to or to what is found
whether a label is written. Two labels can be written in either order just when they go to
different nodes, to an alias and a filter, to two keys one of which is there, or are the same.
Of two in one slot only the second one counts. -/
theorem write_effect {t : Tree} {w w' : LabelWrite} (hw : w.id < t.size) {id : Nat}
    (hid : id < t.size) (path : Text) :
    (t.write w).resolve id path = ((t.resolve id path).1.write w, (t.resolve id path).2) ∧
      ((t.write w).child = t.child ∧ (t.write w).lookup = t.lookup ∧
        (t.write w).parent = t.parent) ∧
      ((t.write w).write w' = (t.write w').write w ↔
        w.id ≠ w'.id ∨ w.slot.Apart (Filters.keys (t.filters w.id)) w'.slot ∨ w = w') ∧
      (w.id = w'.id → w.slot = w'.slot → (t.write w).write w' = t.write w') :=
  ⟨resolve_write hw hid path, ⟨child_write t w, lookup_write t w, parent_write t w⟩,
    write_comm_iff hw, write_write_self hw⟩

def argumentOfB (key value : String) : LabelWrite := ⟨2, .filter key.toList, value.toList⟩

/-- The node that is labelled gets a child; its key `k` is there, `l` and `m` are not. -/
theorem write_effect_shallow :
    2 < shallow.size ∧ (shallow.resolve 2 "c".toList).1.size = 4 ∧
      (shallow.write (argumentOfB "l" "x")).resolve 2 "c".toList =
        ((shallow.resolve 2 "c".toList).1.write (argumentOfB "l" "x"), 3) ∧
      (shallow.write (argumentOfB "l" "x")).write (argumentOfB "k" "y") =
        (shallow.write (argumentOfB "k" "y")).write (argumentOfB "l" "x") ∧
      (shallow.write (argumentOfB "l" "x")).write (argumentOfB "m" "y") ≠
        (shallow.write (argumentOfB "m" "y")).write (argumentOfB "l" "x") ∧
      (shallow.write (argumentOfB "l" "x")).write (argumentOfB "l" "y") =
        shallow.write (argumentOfB "l" "y") := by
  have hid : 2 < shallow.size := by decide +kernel
  have hresolved : (shallow.resolve 2 "c".toList).2 = 3 := by decide +kernel
  have hkeys : Filters.keys (shallow.filters 2) = ["k".toList] := by decide +kernel
  have heffect (key : String) :=
    @write_effect shallow (argumentOfB "l" "x") (argumentOfB key "y") hid 2 hid "c".toList
  refine ⟨hid, by decide +kernel, hresolved ▸ (heffect "l").1, ?_, ?_, (heffect "l").2.2.2 rfl rfl⟩
  · refine (heffect "k").2.2.1.2 (.inr (.inl ⟨by decide, .inr ?_⟩))
    rw [show (argumentOfB "l" "x").id = 2 from rfl, hkeys]
    decide
  · refine mt (heffect "m").2.2.1.1 ?_
    rintro (hne | ⟨-, hl | hm⟩ | hsame)
    · exact hne rfl
    · rw [show (argumentOfB "l" "x").id = 2 from rfl, hkeys] at hl
      exact absurd hl (by decide)
    · rw [show (argumentOfB "l" "x").id = 2 from rfl, hkeys] at hm
      exact absurd hm (by decide)
    · exact absurd hsame (by decide)

end Tree

end QueryShorthand
