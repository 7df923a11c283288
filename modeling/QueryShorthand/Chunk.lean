import QueryShorthand.Text.Pieces

/-! The pieces of a shorthand string such as `user.posts(first:5),name`: names, each
opened by its connector, and parenthesised labels. Writing the chunks of a string one
after another gives the string back. -/

namespace QueryShorthand
set_option autoImplicit false

inductive ChunkKind where
  | start
  /-- A name after `.`, below the current field. -/
  | descend
  /-- A name after `,`, below the field that was current when the batch began. -/
  | sibling
  | label
  deriving DecidableEq

/-- The text of a name or label without its connector or parentheses, and the position
at which the chunk begins. -/
structure Chunk where
  kind : ChunkKind
  text : Text
  position : Nat
  deriving DecidableEq

/-- Chunks that belong together. A batch ends before every `.` outside parentheses. -/
abbrev Batch := List Chunk

def Chunk.written (c : Chunk) : Text :=
  match c.kind with
  | .start => c.text
  | .descend => '.' :: c.text
  | .sibling => ',' :: c.text
  | .label => '(' :: (c.text ++ [')'])

def Batch.written (b : Batch) : Text := b.flatMap Chunk.written

def isNameChar (c : Char) : Bool := c != '.' && c != ',' && c != '(' && c != ')'

end QueryShorthand
