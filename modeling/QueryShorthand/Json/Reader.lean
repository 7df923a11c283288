import QueryShorthand.Json.Value

/-! Reading JSON strictly: nothing but the grammar, numbers that are finite, and a limit on
the depth of arrays and objects, which is also what the recursion descends on. -/

namespace QueryShorthand.Json
set_option autoImplicit false

def isBlank (c : Char) : Bool := c == ' ' || c == '\t' || c == '\n' || c == '\r'

def skipBlank (s : Text) : Text := s.dropWhile isBlank

def unit (a b c d : Char) : Option Nat := do
  return (((← Hex.value a) * 16 + (← Hex.value b)) * 16 + (← Hex.value c)) * 16 + (← Hex.value d)

def escaped (c : Char) : Option Char :=
  match c with
  | '"' | '\\' | '/' => some c
  | 'b' => some '\x08'
  | 'f' => some '\x0c'
  | 'n' => some '\n'
  | 'r' => some '\r'
  | 't' => some '\t'
  | _ => none

def surrogatePair (high low : Nat) : Option Char :=
  if 0xDC00 ≤ low ∧ low ≤ 0xDFFF then
    some (Char.ofNat (0x10000 + (high - 0xD800) * 0x400 + (low - 0xDC00)))
  else none

/-- The rest of a string behind its opening quote and what follows the closing one. The
characters already read are in `done`, the last one first. A surrogate counts only as half of
a pair. -/
def stringFrom (done : Text) : Text → Option (Text × Text)
  | '"' :: s => some (done.reverse, s)
  | '\\' :: 'u' :: a :: b :: c :: d :: s =>
    match unit a b c d with
    | none => none
    | some n =>
      if 0xD800 ≤ n ∧ n ≤ 0xDBFF then
        match s with
        | '\\' :: 'u' :: e :: f :: g :: h :: s =>
          match (unit e f g h).bind (surrogatePair n) with
          | some ch => stringFrom (ch :: done) s
          | none => none
        | _ => none
      else if 0xDC00 ≤ n ∧ n ≤ 0xDFFF then none
      else stringFrom (Char.ofNat n :: done) s
  | '\\' :: c :: s =>
    match escaped c with
    | some ch => stringFrom (ch :: done) s
    | none => none
  | c :: s => if c.toNat < 0x20 ∨ c = '\\' then none else stringFrom (c :: done) s
  | [] => none

def string : Text → Option (Text × Text)
  | '"' :: s => stringFrom [] s
  | _ => none

/-- Items with commas between them up to the closing character. An item that takes
nothing ends the reading. -/
def items {α : Type} (item : Text → Option (α × Text)) (close : Char) (s : Text) :
    Option (List α × Text) :=
  match item s with
  | none => none
  | some (a, rest) =>
    match skipBlank rest with
    | [] => none
    | c :: rest =>
      if c = close then some ([a], rest)
      else if c = ',' ∧ rest.length < s.length then
        (items item close rest).map fun (as, rest) => (a :: as, rest)
      else none
termination_by s.length

def enclosed {α : Type} (item : Text → Option (α × Text)) (close : Char) (s : Text) :
    Option (List α × Text) :=
  match skipBlank s with
  | [] => none
  | c :: rest => if c = close then some ([], rest) else items item close s

def member {α : Type} (value : Text → Option (α × Text)) (s : Text) :
    Option ((Text × α) × Text) := do
  let (key, s) ← string (skipBlank s)
  match skipBlank s with
  | ':' :: s => (value s).map fun (v, rest) => ((key, v), rest)
  | _ => none

def scalar : Text → Option (Value × Text)
  | 'n' :: 'u' :: 'l' :: 'l' :: s => some (.null, s)
  | 't' :: 'r' :: 'u' :: 'e' :: s => some (.bool true, s)
  | 'f' :: 'a' :: 'l' :: 's' :: 'e' :: s => some (.bool false, s)
  | '"' :: s => (stringFrom [] s).map fun (t, rest) => (.string t, rest)
  | s => do
    let (l, rest) ← Literal.scan s
    return (.number (← l.value), rest)

/-- The value at the front of a text and what follows it, with arrays and objects at most
`depth` deep. -/
def value : (depth : Nat) → Text → Option (Value × Text)
  | depth, s =>
    match depth, skipBlank s with
    | 0, '[' :: _ => none
    | 0, '\x7b' :: _ => none
    | depth + 1, '[' :: s =>
      (enclosed (value depth) ']' s).map fun (vs, rest) => (.array vs, rest)
    | depth + 1, '\x7b' :: s =>
      (enclosed (member (value depth)) '\x7d' s).map fun (ms, rest) => (.ofMembers ms, rest)
    | _, s => scalar s

def read (depth : Nat) (s : Text) : Option Value :=
  match value depth s with
  | some (v, rest) => if skipBlank rest = [] then some v else none
  | none => none

end QueryShorthand.Json
