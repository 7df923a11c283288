import QueryShorthand.Tree.Handle
import QueryShorthand.Selection

/-! The selections of a tree and the document it stands for. -/

namespace QueryShorthand
set_option autoImplicit false

namespace Tree

/-- The field at an index with all that is below it. A child is younger than its parent
and has a node, so the descent ends. -/
def selection (t : Tree) (id : Nat) : Selection :=
  let node := (t.node? id).getD .root
  let below := node.children.filter fun c => id < c ∧ c < t.size
  .mk node.isRoot node.aliasName node.name node.filters
    (below.attach.map fun c => t.selection c.1)
termination_by t.size - id
decreasing_by
  have hc := of_decide_eq_true (List.mem_filter.1 c.2).2
  omega

def printFrom (t : Tree) (id : Nat) (sep : Text) : Text := (t.selection id).text sep

def print (t : Tree) (sep : Text) : Text := t.printFrom root sep

/-- The query with nothing between two arguments, which the closing quote keeps apart. -/
def query (t : Tree) : Text := t.print []

def printAt (t : Tree) (id : Nat) (sep : Text) : Except OutOfRange Text := do
  let _ ← t.nodeAt id
  return t.printFrom id sep

theorem selection_eq {t : Tree} {id : Nat} {n : Node} (h : t.node? id = some n)
    (hc : ∀ c ∈ n.children, id < c ∧ c < t.size) :
    t.selection id =
      .mk n.isRoot n.aliasName n.name n.filters (n.children.map t.selection) := by
  rw [selection]
  simp only [h, Option.getD_some, List.map_attach_eq_pmap, List.pmap_eq_map]
  rw [List.filter_eq_self.2 fun c hm => decide_eq_true (hc c hm)]

theorem printAt_of_lt {t : Tree} {id : Nat} (hid : id < t.size) (sep : Text) :
    t.printAt id sep = .ok (t.printFrom id sep) := by
  obtain ⟨n, hn⟩ := exists_node? hid
  rw [printAt, nodeAt, hn]
  rfl

end Tree

end QueryShorthand
