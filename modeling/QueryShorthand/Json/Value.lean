import QueryShorthand.Json.Number

/-! JSON values. -/

namespace QueryShorthand.Json
set_option autoImplicit false

/-- The members of an object that was read are ordered by key, each key once. -/
inductive Value where
  | null
  | bool (b : Bool)
  | number (n : Number)
  | string (s : Text)
  | array (items : List Value)
  | object (members : List (Text × Value))

/-- Puts a member in its place among members ordered by key. A later value of a key
replaces an earlier one. -/
def insertMember (key : Text) (v : Value) : List (Text × Value) → List (Text × Value)
  | [] => [(key, v)]
  | (k, w) :: rest =>
    if key = k then (key, v) :: rest
    else if key < k then (key, v) :: (k, w) :: rest
    else (k, w) :: insertMember key v rest

namespace Value

def ofMembers (members : List (Text × Value)) : Value :=
  .object (members.foldl (fun ms (key, v) => insertMember key v ms) [])

def member? (key : Text) : Value → Option Value
  | .object members => members.lookup key
  | _ => none

end Value

end QueryShorthand.Json
