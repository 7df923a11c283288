/-! Non-negative binary64 numbers, computed exactly: a result is a quotient of naturals
that is rounded once, to the nearest number and at a tie to the even mantissa. -/

namespace QueryShorthand
set_option autoImplicit false

/-- The number `mantissa * 2 ^ exponent`. The mantissa has 53 bits, or fewer when the
exponent is the least one. -/
structure Magnitude where
  mantissa : Nat
  exponent : Int
  deriving DecidableEq

namespace Magnitude

def leastExponent : Int := -1074

def greatestExponent : Int := 971

def leadingBit : Nat := 0x10000000000000

def zero : Magnitude := ⟨0, leastExponent⟩

/-- The quotient `num / den`, divided by `2 ^ e`, as a quotient of naturals. -/
def scale (num den : Nat) (e : Int) : Nat × Nat :=
  (num * Nat.pow 2 (-e).toNat, den * Nat.pow 2 e.toNat)

/-- The natural nearest to `num / den`, of two the even one. -/
def nearest (num den : Nat) : Nat :=
  let q := num / den
  let r := num % den
  if 2 * r < den ∨ 2 * r = den ∧ q % 2 = 0 then q else q + 1

/-- The exponent with which the mantissa of `num / den` has 53 bits, or the least one. -/
def exponentFor (num den : Nat) : Int :=
  let e : Int := num.log2 - den.log2 - 52
  let (n, d) := scale num den e
  let e := if n < leadingBit * d then e - 1 else e
  if e < leastExponent then leastExponent else e

/-- The number nearest to `num / den`, or `none` when that is beyond the greatest one. -/
def round (num den : Nat) : Option Magnitude :=
  if num = 0 then some zero
  else
    let e := exponentFor num den
    let (n, d) := scale num den e
    let m := nearest n d
    let rounded : Magnitude :=
      if m = 2 * leadingBit then ⟨leadingBit, e + 1⟩ else ⟨m, e⟩
    if rounded.exponent ≤ greatestExponent then some rounded else none

def num (x : Magnitude) : Nat := x.mantissa * Nat.pow 2 x.exponent.toNat

def den (x : Magnitude) : Nat := Nat.pow 2 (-x.exponent).toNat

def mul (x y : Magnitude) : Option Magnitude := round (x.num * y.num) (x.den * y.den)

def div (x y : Magnitude) : Option Magnitude := round (x.num * y.den) (x.den * y.num)

def greatestPower : Nat := 308

def powerOfTen (k : Nat) : Magnitude := (round (Nat.pow 10 k) 1).getD zero

def shrink (x : Magnitude) (k : Nat) : Option Magnitude :=
  if k ≤ greatestPower then x.div (powerOfTen k)
  else if x.mantissa = 0 then some zero
  else (x.div (powerOfTen greatestPower)).bind fun y => y.shrink (k - greatestPower)
termination_by k
decreasing_by unfold greatestPower at *; omega

/-- The number `significand * 10 ^ exponent`: the significand is rounded, then scaled by a
rounded power of ten, and the product or quotient is rounded again. -/
def ofDecimal (significand : Nat) (exponent : Int) : Option Magnitude :=
  (round significand 1).bind fun x =>
    if exponent < 0 then x.shrink (-exponent).toNat
    else if exponent ≤ greatestPower then x.mul (powerOfTen exponent.toNat)
    else if significand = 0 then some zero
    else none

end Magnitude

end QueryShorthand
