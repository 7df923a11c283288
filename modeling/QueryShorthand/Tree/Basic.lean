import QueryShorthand.Tree.Filters

/-! A tree of fields that only grows. Its nodes stand in one array in the order of their
creation and are addressed by index. A node knows its parent and the list of its children;
the two are written together when a field is added and never changed afterwards. -/

namespace QueryShorthand
set_option autoImplicit false

structure Node where
  /-- Only the root has no name. -/
  name : Option Text
  aliasName : Option Text
  filters : Filters
  /-- The fields below this one, in the order in which they were first referred to. -/
  children : List Nat
  parent : Option Nat
  deriving DecidableEq

structure Tree where
  nodes : Array Node
  deriving DecidableEq

namespace Node

def root : Node := ⟨none, none, [], [], none⟩

def field (name : Text) (parent : Nat) : Node :=
  { root with name := some name, parent := some parent }

def isRoot (n : Node) : Bool := n.parent.isNone

def addChild (c : Nat) (n : Node) : Node := { n with children := n.children ++ [c] }

end Node

namespace Tree

def empty : Tree := ⟨#[Node.root]⟩

def root : Nat := 0

def size (t : Tree) : Nat := t.nodes.size

def isEmpty (t : Tree) : Bool := t.size == 1

def node? (t : Tree) (id : Nat) : Option Node := t.nodes[id]?

def parent (t : Tree) (id : Nat) : Option Nat := (t.node? id).bind Node.parent

def name (t : Tree) (id : Nat) : Option Text := (t.node? id).bind Node.name

def children (t : Tree) (id : Nat) : List Nat := ((t.node? id).map Node.children).getD []

def aliasName (t : Tree) (id : Nat) : Option Text := (t.node? id).bind Node.aliasName

def filters (t : Tree) (id : Nat) : Filters := ((t.node? id).map Node.filters).getD []

/-- The child of a node that has the given name. Aliases play no part in this. -/
def child (t : Tree) (id : Nat) (name : Text) : Option Nat :=
  (t.children id).find? fun c => t.name c == some name

def lookup (t : Tree) (id : Nat) (path : Text) : Option Nat :=
  (pieces '.' path).foldlM t.child id

def modify (t : Tree) (id : Nat) (f : Node → Node) : Tree := ⟨t.nodes.modify id f⟩

def push (t : Tree) (parent : Nat) (name : Text) : Tree :=
  Tree.modify ⟨t.nodes.push (.field name parent)⟩ parent (Node.addChild t.size)

/-- The child of that name, which is added behind its siblings when it is not there. -/
def enter (t : Tree) (id : Nat) (name : Text) : Tree × Nat :=
  match t.child id name with
  | some c => (t, c)
  | none => (t.push id name, t.size)

/-- Follows a dotted path downwards and adds every field that is missing on it. -/
def resolve (t : Tree) (id : Nat) (path : Text) : Tree × Nat :=
  (pieces '.' path).foldl (fun (t, id) name => t.enter id name) (t, id)

def filter (t : Tree) (id : Nat) (key : Text) : Option Text :=
  (t.node? id).bind fun n => n.filters.lookup key

def setFilter (t : Tree) (id : Nat) (key value : Text) : Tree :=
  t.modify id fun n => { n with filters := Filters.put key value n.filters }

def setAlias (t : Tree) (id : Nat) (name : Text) : Tree :=
  t.modify id fun n => { n with aliasName := some name }

@[simp] theorem size_empty : empty.size = 1 := rfl

@[simp] theorem size_modify (t : Tree) (id : Nat) (f : Node → Node) :
    (t.modify id f).size = t.size := by
  simp [modify, size]

@[simp] theorem size_push (t : Tree) (id : Nat) (name : Text) :
    (t.push id name).size = t.size + 1 := by
  simp [push, size, modify]

@[simp] theorem size_setFilter (t : Tree) (id : Nat) (key value : Text) :
    (t.setFilter id key value).size = t.size := size_modify ..

@[simp] theorem size_setAlias (t : Tree) (id : Nat) (name : Text) :
    (t.setAlias id name).size = t.size := size_modify ..

theorem node?_eq_none {t : Tree} {id : Nat} : t.node? id = none ↔ t.size ≤ id :=
  Array.getElem?_eq_none_iff

theorem lt_size_of_node? {t : Tree} {id : Nat} {n : Node} (h : t.node? id = some n) :
    id < t.size :=
  (Array.getElem?_eq_some_iff.1 h).1

theorem exists_node? {t : Tree} {id : Nat} (h : id < t.size) : ∃ n, t.node? id = some n :=
  ⟨_, Array.getElem?_eq_getElem h⟩

theorem node?_modify (t : Tree) (id : Nat) (f : Node → Node) (i : Nat) :
    (t.modify id f).node? i = if id = i then (t.node? i).map f else t.node? i :=
  Array.getElem?_modify

/-- An added field is the newest node; besides it, only its parent has changed. -/
theorem node?_push {t : Tree} {id : Nat} (h : id < t.size) (name : Text) (i : Nat) :
    (t.push id name).node? i =
      if i = t.size then some (.field name id)
      else if id = i then (t.node? i).map (Node.addChild t.size) else t.node? i := by
  have hne : id ≠ t.nodes.size := Nat.ne_of_lt h
  rw [push, node?_modify]
  simp only [node?, size, Array.getElem?_push]
  by_cases hi : i = t.nodes.size
  · simp [hi, hne]
  · simp [hi]

theorem name_of_node? {t : Tree} {id : Nat} {n : Node} (h : t.node? id = some n) :
    t.name id = n.name := by
  rw [name, h, Option.bind_some]

theorem parent_of_node? {t : Tree} {id : Nat} {n : Node} (h : t.node? id = some n) :
    t.parent id = n.parent := by
  rw [parent, h, Option.bind_some]

theorem children_of_node? {t : Tree} {id : Nat} {n : Node} (h : t.node? id = some n) :
    t.children id = n.children := by
  rw [children, h, Option.map_some, Option.getD_some]

theorem lt_size_of_name {t : Tree} {id : Nat} {s : Text} (h : t.name id = some s) :
    id < t.size := by
  obtain ⟨n, hn, -⟩ := Option.bind_eq_some_iff.1 h
  exact lt_size_of_node? hn

theorem aliasName_eq_none {t : Tree} {id : Nat} (h : t.size ≤ id) : t.aliasName id = none := by
  rw [aliasName, node?_eq_none.2 h]
  rfl

theorem filters_eq_nil {t : Tree} {id : Nat} (h : t.size ≤ id) : t.filters id = [] := by
  rw [filters, node?_eq_none.2 h]
  rfl

theorem child_eq_some {t : Tree} {id c : Nat} {s : Text} (h : t.child id s = some c) :
    c ∈ t.children id ∧ t.name c = some s :=
  ⟨List.mem_of_find?_eq_some h, by simpa using List.find?_some h⟩

/-- A tree is what is read off its nodes. -/
theorem ext_views {t u : Tree} (hsize : t.size = u.size)
    (h : ∀ i, i < t.size → t.name i = u.name i ∧ t.parent i = u.parent i ∧
      t.children i = u.children i ∧ t.aliasName i = u.aliasName i ∧ t.filters i = u.filters i) :
    t = u := by
  suffices hnode : ∀ i : Nat, t.nodes[i]? = u.nodes[i]? from
    congrArg Tree.mk (Array.ext_getElem? hnode)
  intro i
  change t.node? i = u.node? i
  rcases Nat.lt_or_ge i t.size with hi | hi
  · obtain ⟨n, hn⟩ := exists_node? hi
    obtain ⟨m, hm⟩ := exists_node? (hsize ▸ hi)
    have hviews := h i hi
    simp only [name, parent, children, aliasName, filters, hn, hm, Option.bind_some,
      Option.map_some, Option.getD_some] at hviews
    obtain ⟨hname, hparent, hchildren, halias, hfilters⟩ := hviews
    obtain ⟨⟩ := n
    obtain ⟨⟩ := m
    cases hname
    cases hparent
    cases hchildren
    cases halias
    cases hfilters
    rw [hn, hm]
  · rw [node?_eq_none.2 hi, node?_eq_none.2 (hsize ▸ hi)]

/-! What the operations do to names, parents, children and labels. -/

section
variable {β : Type} {t : Tree} {id : Nat} {f : Node → Node}

/-- What is read off a node does not change when the modification keeps it. -/
theorem view_modify {g : Option Node → β} (hf : ∀ n, g (some (f n)) = g (some n)) (i : Nat) :
    g ((t.modify id f).node? i) = g (t.node? i) := by
  rw [node?_modify]
  split
  · cases t.node? i with
    | none => rfl
    | some n => exact hf n
  · rfl

theorem view_push {g : Option Node → β} (hg : ∀ c n, g (some (Node.addChild c n)) = g (some n))
    (h : id < t.size) (s : Text) (i : Nat) :
    g ((t.push id s).node? i) = if i = t.size then g (some (.field s id)) else g (t.node? i) := by
  rw [node?_push h]
  split
  · rfl
  · split
    · cases t.node? i with
      | none => rfl
      | some n => exact hg t.size n
    · rfl

theorem name_modify (hf : ∀ n, (f n).name = n.name) (i : Nat) :
    (t.modify id f).name i = t.name i :=
  view_modify (g := (·.bind Node.name)) hf i

theorem parent_modify (hf : ∀ n, (f n).parent = n.parent) (i : Nat) :
    (t.modify id f).parent i = t.parent i :=
  view_modify (g := (·.bind Node.parent)) hf i

theorem children_modify (hf : ∀ n, (f n).children = n.children) (i : Nat) :
    (t.modify id f).children i = t.children i :=
  view_modify (g := fun n => (n.map Node.children).getD []) hf i

theorem aliasName_modify (hf : ∀ n, (f n).aliasName = n.aliasName) (i : Nat) :
    (t.modify id f).aliasName i = t.aliasName i :=
  view_modify (g := (·.bind Node.aliasName)) hf i

theorem filters_modify (hf : ∀ n, (f n).filters = n.filters) (i : Nat) :
    (t.modify id f).filters i = t.filters i :=
  view_modify (g := fun n => (n.map Node.filters).getD []) hf i

theorem name_push (h : id < t.size) (s : Text) (i : Nat) :
    (t.push id s).name i = if i = t.size then some s else t.name i :=
  view_push (g := (·.bind Node.name)) (fun _ _ => rfl) h s i

theorem parent_push (h : id < t.size) (s : Text) (i : Nat) :
    (t.push id s).parent i = if i = t.size then some id else t.parent i :=
  view_push (g := (·.bind Node.parent)) (fun _ _ => rfl) h s i

/-- The new field has no alias, like the index it stands at had before. -/
theorem aliasName_push (h : id < t.size) (s : Text) : (t.push id s).aliasName = t.aliasName := by
  funext i
  refine (view_push (g := (·.bind Node.aliasName)) (fun _ _ => rfl) h s i).trans ?_
  split
  · rename_i hi
    exact (aliasName_eq_none (Nat.le_of_eq hi.symm)).symm
  · rfl

theorem filters_push (h : id < t.size) (s : Text) : (t.push id s).filters = t.filters := by
  funext i
  refine (view_push (g := fun n => (n.map Node.filters).getD []) (fun _ _ => rfl) h s i).trans ?_
  split
  · rename_i hi
    exact (filters_eq_nil (Nat.le_of_eq hi.symm)).symm
  · rfl

theorem children_push (h : id < t.size) (s : Text) (i : Nat) :
    (t.push id s).children i = if i = id then t.children i ++ [t.size] else t.children i := by
  obtain ⟨n, hn⟩ := exists_node? h
  simp only [children, node?_push h]
  by_cases hi : i = t.size
  · have hne : i ≠ id := fun he => Nat.ne_of_lt h (he ▸ hi)
    rw [if_pos hi, if_neg hne, node?_eq_none.2 (Nat.le_of_eq hi.symm)]
    rfl
  · rw [if_neg hi]
    by_cases he : i = id
    · subst he
      simp [hn, Node.addChild]
    · rw [if_neg he, if_neg (Ne.symm he)]

end

@[simp] theorem name_setFilter (t : Tree) (id : Nat) (key value : Text) :
    (t.setFilter id key value).name = t.name := funext (name_modify fun _ => rfl)

@[simp] theorem parent_setFilter (t : Tree) (id : Nat) (key value : Text) :
    (t.setFilter id key value).parent = t.parent := funext (parent_modify fun _ => rfl)

@[simp] theorem children_setFilter (t : Tree) (id : Nat) (key value : Text) :
    (t.setFilter id key value).children = t.children := funext (children_modify fun _ => rfl)

@[simp] theorem name_setAlias (t : Tree) (id : Nat) (s : Text) :
    (t.setAlias id s).name = t.name := funext (name_modify fun _ => rfl)

@[simp] theorem parent_setAlias (t : Tree) (id : Nat) (s : Text) :
    (t.setAlias id s).parent = t.parent := funext (parent_modify fun _ => rfl)

@[simp] theorem children_setAlias (t : Tree) (id : Nat) (s : Text) :
    (t.setAlias id s).children = t.children := funext (children_modify fun _ => rfl)

@[simp] theorem aliasName_setFilter (t : Tree) (id : Nat) (key value : Text) :
    (t.setFilter id key value).aliasName = t.aliasName := funext (aliasName_modify fun _ => rfl)

@[simp] theorem filters_setAlias (t : Tree) (id : Nat) (s : Text) :
    (t.setAlias id s).filters = t.filters := funext (filters_modify fun _ => rfl)

theorem filters_setFilter {t : Tree} {id : Nat} (h : id < t.size) (key value : Text) (i : Nat) :
    (t.setFilter id key value).filters i =
      if i = id then (t.filters i).put key value else t.filters i := by
  simp only [filters, setFilter, node?_modify, eq_comm (a := id)]
  split
  · rename_i hi
    obtain ⟨n, hn⟩ := exists_node? h
    simp [hi, hn]
  · rfl

theorem aliasName_setAlias {t : Tree} {id : Nat} (h : id < t.size) (s : Text) (i : Nat) :
    (t.setAlias id s).aliasName i = if i = id then some s else t.aliasName i := by
  simp only [aliasName, setAlias, node?_modify, eq_comm (a := id)]
  split
  · rename_i hi
    obtain ⟨n, hn⟩ := exists_node? h
    simp [hi, hn]
  · rfl

end Tree

end QueryShorthand
