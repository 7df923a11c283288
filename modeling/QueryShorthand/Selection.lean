import QueryShorthand.Tree.Filters

/-! Query documents: nested selections and the text they are written as, without any
blank space. Values are quoted but not escaped. -/

namespace QueryShorthand
set_option autoImplicit false

/-- A field with its alias, its arguments and the fields selected below it. The root
stands for the whole query. -/
inductive Selection where
  | mk (isRoot : Bool) (aliasName name : Option Text) (filters : Filters)
      (children : List Selection)

/-- The texts of the children of one node, between braces when there are any. -/
def braced : List Text → Text
  | [] => []
  | first :: others => '{' :: (first ++ (others.flatMap (',' :: ·) ++ ['}']))

namespace Selection

def heading (isRoot : Bool) (aliasName name : Option Text) : Text :=
  (if isRoot then "query".toList else []) ++
    (match aliasName with
      | some a => a ++ [':']
      | none => []) ++
    name.getD []

def argument (entry : Text × Text) : Text := entry.1 ++ ":\"".toList ++ entry.2 ++ ['"']

def arguments (sep : Text) (filters : Filters) : Text :=
  match filters with
  | [] => []
  | _ => '(' :: (sep.intercalate (filters.map argument) ++ [')'])

mutual

/-- The document of a selection; `sep` stands between two arguments of one field. -/
def text (sep : Text) : Selection → Text
  | .mk isRoot aliasName name filters children =>
    heading isRoot aliasName name ++ arguments sep filters ++
      match children with
      | [] => []
      | first :: others => '{' :: (first.text sep ++ textBehind sep others)

/-- The fields after the first one, each with a comma before it, and the closing brace. -/
def textBehind (sep : Text) : List Selection → Text
  | [] => ['}']
  | next :: others => ',' :: (next.text sep ++ textBehind sep others)

end

end Selection

end QueryShorthand
