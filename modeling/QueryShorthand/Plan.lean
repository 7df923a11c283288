import QueryShorthand.Label
import QueryShorthand.Scanner
import QueryShorthand.Tree.Basic

/-! Putting shorthand strings into a tree. A string is read completely before the tree
is touched, so a string with a fault leaves the tree as it was. -/

namespace QueryShorthand
set_option autoImplicit false

inductive Step where
  | descend (name : Text)
  /-- Go to a field below the one that was current when the batch began. -/
  | sibling (name : Text)
  | mark (label : Label)
  deriving DecidableEq

abbrev Plan := List (List Step)

def Chunk.step (c : Chunk) : Except Fault Step :=
  match c.kind with
  | .start | .descend => .ok (.descend c.text)
  | .sibling => .ok (.sibling c.text)
  | .label =>
    match Label.ofText c.text with
    | .ok label => .ok (.mark label)
    | .error reason => .error ⟨c.position, reason⟩

/-- Faults of the scan come first, then the leftmost label that cannot be read. -/
def Plan.ofSpec (spec : Text) : Except ParseError Plan := do
  let batches ← tokenize spec
  (batches.mapM (List.mapM Chunk.step)).mapError (·.inside spec)

namespace Tree

/-- Takes one step from the current field, in a batch that began at `base`. -/
def follow (base : Nat) : Tree × Nat → Step → Tree × Nat
  | (t, id), .descend name => t.resolve id name
  | (t, _), .sibling name => t.resolve base name
  | (t, id), .mark (.filter key value) => (t.setFilter id key value, id)
  | (t, id), .mark (.aliased target name) =>
    let (t, id) := t.resolve id target
    (t.setAlias id name, id)

def followBatch (here : Tree × Nat) (steps : List Step) : Tree × Nat :=
  steps.foldl (follow here.2) here

def apply (t : Tree) (plan : Plan) : Tree × Nat := plan.foldl followBatch (t, root)

def parseField (t : Tree) (spec : Text) : Except ParseError (Tree × Nat) :=
  (Plan.ofSpec spec).map t.apply

/-- Puts shorthand strings into the tree one after another, up to the first that fails;
those before it stay. -/
def parseFields (t : Tree) : List Text → Tree × Option ParseError
  | [] => (t, none)
  | spec :: specs =>
    match t.parseField spec with
    | .ok (t', _) => t'.parseFields specs
    | .error e => (t, some e)

end Tree

def parseFields (specs : List Text) : Except ParseError Tree :=
  match Tree.empty.parseFields specs with
  | (t, none) => .ok t
  | (_, some e) => .error e

end QueryShorthand
