import QueryShorthand.Number.Binary64
import QueryShorthand.Text.Digits

/-! The fewest decimal digits that tell a binary64 number from all others. A decimal reads
back as the number when it lies between the midpoints to the number's two neighbours; the
midpoints themselves round to the number when its mantissa is even. On the grid of each
digit count only the two points around the number need to be tried. -/

namespace QueryShorthand
set_option autoImplicit false

/-- Decimal digits with the point behind the first one, times `10 ^ exponent`. -/
structure Significant where
  digits : Text
  exponent : Int
  deriving DecidableEq

namespace Magnitude

/-- A number between the midpoints to its neighbours, in quarters of its last place. -/
structure Span where
  low : Nat
  mid : Nat
  high : Nat

/-- Below a power of two the numbers lie twice as close. -/
def span (x : Magnitude) : Span :=
  let mid := 4 * x.mantissa
  let nearBelow := x.mantissa = leadingBit ∧ leastExponent < x.exponent
  ⟨if nearBelow then mid - 1 else mid - 2, mid, mid + 2⟩

/-- Factors `(a, b)` by which `c * 10 ^ k` and `n` quarters of the last place are compared as
`c * a` and `n * b`. -/
def factors (x : Magnitude) (k : Int) : Nat × Nat :=
  let e := x.exponent - 2
  (Nat.pow 10 k.toNat * Nat.pow 2 (-e).toNat, Nat.pow 2 e.toNat * Nat.pow 10 (-k).toNat)

/-- The multiple of `10 ^ k` that reads back as the number and is nearest to it, at a tie the
even one. -/
def pick (x : Magnitude) (k : Int) : Option Nat :=
  let s := x.span
  let (a, b) := x.factors k
  let readsBack (c : Nat) : Bool :=
    if x.mantissa % 2 = 0 then s.low * b ≤ c * a && c * a ≤ s.high * b
    else s.low * b < c * a && c * a < s.high * b
  let down := s.mid * b / a
  let up := down + 1
  let below := s.mid * b - down * a
  let above := up * a - s.mid * b
  if readsBack down && readsBack up then
    some (if below < above ∨ below = above ∧ down % 2 = 0 then down else up)
  else if readsBack down then some down
  else if readsBack up then some up
  else none

def firstPlace (x : Magnitude) : Int :=
  let (a, b) := x.factors 0
  let n := x.span.mid * b
  if a ≤ n then (decimal (n / a)).length - 1 else -(decimal ((a + n - 1) / n - 1)).length

/-- Seventeen digits always suffice. -/
def shortest (x : Magnitude) : Significant :=
  if x.mantissa = 0 then ⟨['0'], 0⟩
  else
    let found := (List.range 17).findSome? fun (i : Nat) =>
      let k := x.firstPlace - i
      (x.pick k).map fun c => (c, k)
    let (c, k) := found.getD (0, 0)
    let digits := decimal c
    ⟨(digits.reverse.dropWhile (· == '0')).reverse, k + digits.length - 1⟩

end Magnitude

end QueryShorthand
