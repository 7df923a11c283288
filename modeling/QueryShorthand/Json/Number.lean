import QueryShorthand.Number.Shortest

/-! Numbers of JSON: how a literal is read and how a value is written. -/

namespace QueryShorthand.Json
set_option autoImplicit false

/-- Whole numbers of 64 bits stay exact, everything else is binary64. Only the latter has
a negative zero. -/
inductive Number where
  | integer (value : Int)
  | float (negative : Bool) (magnitude : Magnitude)
  deriving DecidableEq

/-- A number as it is written. The fraction and the exponent may be missing; the exponent is
signed. -/
structure Literal where
  negative : Bool
  whole : Text
  fraction : Option Text
  exponent : Option (Bool × Text)
  deriving DecidableEq

def wordLimit : Nat := 0x10000000000000000

/-- Takes up digits as long as the number they make has 64 bits. The second component
counts the digits that are left. -/
def takeUp (n : Nat) : Text → Nat × Nat
  | [] => (n, 0)
  | c :: cs =>
    if 10 * n + digitValue c < wordLimit then takeUp (10 * n + digitValue c) cs
    else (n, cs.length + 1)

namespace Literal

/-- The significand and the power of ten of a literal. Digits of the whole part that are not
taken up count as zeros, those of the fraction are dropped. -/
def parts (l : Literal) : Nat × Int :=
  let (n, zeros) := takeUp 0 l.whole
  let fraction := l.fraction.getD []
  let (n, dropped) := takeUp n fraction
  let shift : Int := match l.exponent with
    | none => 0
    | some (negative, digits) => if negative then -digitsValue digits else digitsValue digits
  (n, zeros + dropped - fraction.length + shift)

def integer? (l : Literal) : Option Int :=
  if l.fraction.isSome || l.exponent.isSome then none
  else
    let n := digitsValue l.whole
    if l.negative then if n ≠ 0 ∧ 2 * n ≤ wordLimit then some (-n) else none
    else if n < wordLimit then some n else none

def value (l : Literal) : Option Number :=
  match l.integer? with
  | some i => some (.integer i)
  | none => (Magnitude.ofDecimal l.parts.1 l.parts.2).map (.float l.negative)

def digits (s : Text) : Option (Text × Text) :=
  match s.takeWhile Char.isDigit with
  | [] => none
  | ds => some (ds, s.dropWhile Char.isDigit)

def scanWhole : Text → Option (Text × Text)
  | '0' :: s => some (['0'], s)
  | s => digits s

def scanFraction : Text → Option (Option Text × Text)
  | '.' :: s => (digits s).map fun (ds, rest) => (some ds, rest)
  | s => some (none, s)

def scanSign : Text → Bool × Text
  | '-' :: s => (true, s)
  | '+' :: s => (false, s)
  | s => (false, s)

def scanExponent : Text → Option (Option (Bool × Text) × Text)
  | [] => some (none, [])
  | c :: s =>
    if c = 'e' ∨ c = 'E' then
      let (negative, s) := scanSign s
      (digits s).map fun (ds, rest) => (some (negative, ds), rest)
    else some (none, c :: s)

def scan (s : Text) : Option (Literal × Text) := do
  let (negative, s) := match s with
    | '-' :: s => (true, s)
    | s => (false, s)
  let (whole, s) ← scanWhole s
  let (fraction, s) ← scanFraction s
  let (exponent, s) ← scanExponent s
  return (⟨negative, whole, fraction, exponent⟩, s)

end Literal

/-- Which numbers are written without an exponent, by the power of ten of their first digit. -/
structure Layout where
  leastPlain : Int
  greatestPlain : Int

/-- From 0.00001 up to sixteen digits before the point a number is written plainly. -/
def layout : Layout := ⟨-5, 15⟩

def Layout.plain (x : Significant) : Text :=
  if x.exponent < 0 then
    "0.".toList ++ List.replicate (-x.exponent - 1).toNat '0' ++ x.digits
  else
    let places := x.exponent.toNat + 1
    let whole := x.digits.take places
    let fraction := x.digits.drop places
    whole ++ List.replicate (places - whole.length) '0' ++ ['.'] ++
      if fraction = [] then ['0'] else fraction

def Layout.scientific (x : Significant) : Text :=
  x.digits.take 1 ++
    (match x.digits.drop 1 with
      | [] => []
      | fraction => '.' :: fraction) ++
    ['e', if x.exponent < 0 then '-' else '+'] ++ decimal x.exponent.natAbs

def Layout.write (l : Layout) (x : Significant) : Text :=
  if l.leastPlain ≤ x.exponent ∧ x.exponent ≤ l.greatestPlain then plain x else scientific x

def signed (negative : Bool) (s : Text) : Text := if negative then '-' :: s else s

def Number.text : Number → Text
  | .integer i => signed (i < 0) (decimal i.natAbs)
  | .float negative x => signed negative (layout.write x.shortest)

end QueryShorthand.Json
