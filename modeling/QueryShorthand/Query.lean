import QueryShorthand.FieldLines
import QueryShorthand.Plan
import QueryShorthand.Tree.Document

/-! From shorthand strings to a query document. -/

namespace QueryShorthand
set_option autoImplicit false

inductive QueryError where
  | parse (e : ParseError)
  | notUtf8
  | noFields
  deriving DecidableEq

def QueryError.message : QueryError → Text
  | .parse e => "Parse error: ".toList ++ e.message
  | .notUtf8 => "IO error: stream did not contain valid UTF-8".toList
  | .noFields =>
    "No fields provided. Pass shorthand fields as arguments or pipe them to stdin, one per line.".toList

def argumentSeparator (commaArgs : Bool) : Text := if commaArgs then [','] else []

def buildQuery (fields : List Text) (commaArgs : Bool) : Except QueryError Text :=
  if fields = [] then .error .noFields
  else match parseFields fields with
    | .ok t => .ok (t.print (argumentSeparator commaArgs))
    | .error e => .error (.parse e)

end QueryShorthand
