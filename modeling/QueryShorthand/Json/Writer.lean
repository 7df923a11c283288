import QueryShorthand.Json.Value

/-! Writing a JSON value without blank space. -/

namespace QueryShorthand.Json
set_option autoImplicit false

/-- Quotes, backslashes and control characters are escaped, by a letter where there is one. -/
def escapeChar (c : Char) : Text :=
  if c = '"' then "\\\"".toList
  else if c = '\\' then "\\\\".toList
  else if c = '\x08' then "\\b".toList
  else if c = '\x0c' then "\\f".toList
  else if c = '\n' then "\\n".toList
  else if c = '\r' then "\\r".toList
  else if c = '\t' then "\\t".toList
  else if c.toNat < 0x20 then "\\u00".toList ++ [Hex.lower (c.toNat / 16), Hex.lower (c.toNat % 16)]
  else [c]

def quoted (s : Text) : Text := '"' :: (s.flatMap escapeChar ++ ['"'])

namespace Value

mutual

def text : Value → Text
  | .null => "null".toList
  | .bool true => "true".toList
  | .bool false => "false".toList
  | .number n => n.text
  | .string s => quoted s
  | .array [] => "[]".toList
  | .array (v :: vs) => '[' :: (v.text ++ itemsBehind vs)
  | .object [] => ['\x7b', '\x7d']
  | .object ((key, v) :: rest) => '\x7b' :: (quoted key ++ ':' :: (v.text ++ membersBehind rest))

def itemsBehind : List Value → Text
  | [] => [']']
  | v :: vs => ',' :: (v.text ++ itemsBehind vs)

def membersBehind : List (Text × Value) → Text
  | [] => ['\x7d']
  | (key, v) :: rest => ',' :: (quoted key ++ ':' :: (v.text ++ membersBehind rest))

end

end Value

end QueryShorthand.Json
