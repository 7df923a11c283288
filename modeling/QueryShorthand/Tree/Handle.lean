import QueryShorthand.Text.Digits
import QueryShorthand.Tree.Basic

/-! Reading a node through an index that may not be one of the tree's own. -/

namespace QueryShorthand
set_option autoImplicit false

structure OutOfRange where
  size : Nat
  index : Nat
  deriving DecidableEq

def OutOfRange.message (e : OutOfRange) : Text :=
  "index out of bounds: the len is ".toList ++ decimal e.size ++
    " but the index is ".toList ++ decimal e.index

namespace Tree

def nodeAt (t : Tree) (id : Nat) : Except OutOfRange Node :=
  match t.node? id with
  | some n => .ok n
  | none => .error ⟨t.size, id⟩

theorem nodeAt_eq_error_iff {t : Tree} {id : Nat} {e : OutOfRange} :
    t.nodeAt id = .error e ↔ t.size ≤ id ∧ e = ⟨t.size, id⟩ := by
  unfold nodeAt node?
  split
  · rename_i n h
    have hlt := (Array.getElem?_eq_some_iff.1 h).1
    simp only [reduceCtorEq, false_iff, not_and]
    intro hle
    exact absurd hlt (Nat.not_lt.2 hle)
  · rename_i h
    have hle := Array.getElem?_eq_none_iff.1 h
    simp only [Except.error.injEq]
    exact ⟨fun he => ⟨hle, he.symm⟩, fun he => he.2.symm⟩

end Tree

end QueryShorthand
