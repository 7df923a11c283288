import QueryShorthand.Plan
import QueryShorthand.Selection
import QueryShorthand.Tree.Handle

/-! Work on a tree through indices that may not be its own. Nothing is known of an index before
it is used, be it handed in from outside or read off another node: every reading and every
writing of a node looks for it in the array, and the first that finds none stops the work. The
tree stays as the work has left it by then. The functions of a tree that have the same names say
what the work comes to when no index is missing. -/

namespace QueryShorthand
set_option autoImplicit false

/-- Work that finds a tree and leaves one behind, and that ends with a result or stops at an
index. It may also go on without end. -/
abbrev Access (α : Type) := ExceptT OutOfRange (StateT Tree Option) α

namespace Access

def node (id : Nat) : Access Node := do
  MonadExcept.ofExcept ((← get).nodeAt id)

/-- Changes what a node holds. -/
def edit (id : Nat) (f : Node → Node) : Access Unit := do
  let _ ← node id
  modify fun t => t.modify id f

def parent (id : Nat) : Access (Option Nat) := do
  return (← node id).parent

def filter (id : Nat) (key : Text) : Access (Option Text) := do
  return (← node id).filters.lookup key

/-- Reads the children in order, up to the one that has the name. -/
def child (id : Nat) (name : Text) : Access (Option Nat) := do
  (← node id).children.findM? fun c => return (← node c).name == some name

def lookup (id : Nat) (path : Text) : Access (Option Nat) :=
  ((pieces '.' path).foldlM (fun id name => OptionT.mk (child id name)) id).run

/-- The new field stands in the array before its parent is looked for. -/
def push (parent : Nat) (name : Text) : Access Nat := do
  let t ← get
  set (Tree.mk (t.nodes.push (.field name parent)))
  edit parent (Node.addChild t.size)
  return t.size

def enter (id : Nat) (name : Text) : Access Nat := do
  match ← child id name with
  | some c => return c
  | none => push id name

def resolve (id : Nat) (path : Text) : Access Nat := (pieces '.' path).foldlM enter id

def setFilter (id : Nat) (key value : Text) : Access Unit :=
  edit id fun n => { n with filters := Filters.put key value n.filters }

def setAlias (id : Nat) (name : Text) : Access Unit :=
  edit id fun n => { n with aliasName := some name }

def follow (base id : Nat) : Step → Access Nat
  | .descend name => resolve id name
  | .sibling name => resolve base name
  | .mark (.filter key value) => do
    setFilter id key value
    return id
  | .mark (.aliased target name) => do
    let id ← resolve id target
    setAlias id name
    return id

def followBatch (id : Nat) (steps : List Step) : Access Nat := steps.foldlM (follow id) id

def apply (plan : Plan) : Access Nat := plan.foldlM followBatch Tree.root

def parseField (spec : Text) : Access (Except ParseError Nat) :=
  match Plan.ofSpec spec with
  | .error e => return .error e
  | .ok plan => do return .ok (← apply plan)

def parseFields : List Text → Access (Option ParseError)
  | [] => return none
  | spec :: specs => do
    match ← parseField spec with
    | .ok _ => parseFields specs
    | .error e => return some e

/-- The text of a node and of what is below it, down to a depth. -/
def printWithin (sep : Text) : Nat → Nat → Access Text
  | 0, _ => fun _ => none
  | depth + 1, id => do
    let n ← node id
    let parts ← n.children.mapM (printWithin sep depth)
    return Selection.heading n.isRoot n.aliasName n.name ++
      (Selection.arguments sep n.filters ++ braced parts)

/-- Children lead to their own children for as long as there are any. A way down past more nodes
than the tree has comes to one of them again, and then it has no end. -/
def printFrom (sep : Text) (id : Nat) : Access Text := do
  printWithin sep ((← get).size + 1) id

def print (sep : Text) : Access Text := printFrom sep Tree.root

end Access

end QueryShorthand
