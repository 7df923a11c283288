import QueryShorthand.Proofs.Decoded

/-! The grammar of JSON, apart from the reader: which texts stand for which value. Depth is limited
in it, a number has to have a value (one beyond the greatest binary64 number has none), and of the
members of an object that share a key the last one counts. -/

namespace QueryShorthand.Json
set_option autoImplicit false

/-- What may stand around a value and around the marks between values. -/
def Spaces (s : Text) : Prop := ∀ c ∈ s, c ∈ [' ', '\t', '\n', '\r']

/-! Strings -/

/-- What a letter behind a backslash stands for. -/
def escapes : List (Char × Char) :=
  [('"', '"'), ('\\', '\\'), ('/', '/'), ('b', '\x08'), ('f', '\x0c'), ('n', '\n'), ('r', '\r'),
    ('t', '\t')]

def HexDigit (c : Char) (n : Nat) : Prop := n < 16 ∧ (c = Hex.lower n ∨ c = Hex.upper n)

/-- Four hexadecimal digits and the number they make. -/
inductive UnitText : Text → Nat → Prop where
  | digits {a b c d : Char} {i j k l : Nat} (ha : HexDigit a i) (hb : HexDigit b j)
      (hc : HexDigit c k) (hd : HexDigit d l) :
      UnitText [a, b, c, d] (((i * 16 + j) * 16 + k) * 16 + l)

inductive CharText : Text → Char → Prop where
  | plain {c : Char} (hcontrol : 0x20 ≤ c.toNat) (hquote : c ≠ '"') (hbackslash : c ≠ '\\') :
      CharText [c] c
  | escape {letter c : Char} (h : (letter, c) ∈ escapes) : CharText ['\\', letter] c
  | unit {s : Text} {n : Nat} (h : UnitText s n) (hn : n < 0xD800 ∨ 0xDFFF < n) :
      CharText ('\\' :: 'u' :: s) (Char.ofNat n)
  | pair {s t : Text} {high low : Nat} {c : Char} (hs : UnitText s high) (ht : UnitText t low)
      (hhigh : 0xD800 ≤ high ∧ high ≤ 0xDBFF) (hlow : 0xDC00 ≤ low ∧ low ≤ 0xDFFF)
      (hc : c = Char.ofNat (0x10000 + (high - 0xD800) * 0x400 + (low - 0xDC00))) :
      CharText ('\\' :: 'u' :: (s ++ '\\' :: 'u' :: t)) c

/-- What stands between the quotes of a string. -/
inductive StringText : Text → Text → Prop where
  | nil : StringText [] []
  | cons {s t cs : Text} {c : Char} (h : CharText s c) (ht : StringText t cs) :
      StringText (s ++ t) (c :: cs)

/-! Numbers -/

def IsDigits (s : Text) : Prop := s ≠ [] ∧ ∀ c ∈ s, c.isDigit

inductive FractionText : Text → Option Text → Prop where
  | none : FractionText [] none
  | some {ds : Text} (h : IsDigits ds) : FractionText ('.' :: ds) (some ds)

inductive SignText : Text → Bool → Prop where
  | none : SignText [] false
  | plus : SignText ['+'] false
  | minus : SignText ['-'] true

inductive ExponentText : Text → Option (Bool × Text) → Prop where
  | none : ExponentText [] none
  | some {e : Char} {sign ds : Text} {negative : Bool} (he : e = 'e' ∨ e = 'E')
      (hsign : SignText sign negative) (h : IsDigits ds) :
      ExponentText (e :: (sign ++ ds)) (some (negative, ds))

/-- Only zero itself begins with a zero. -/
inductive LiteralText : Text → Literal → Prop where
  | parts {negative : Bool} {whole s t : Text} {fraction : Option Text}
      {exponent : Option (Bool × Text)} (hwhole : IsDigits whole)
      (hzero : whole.head? = some '0' → whole = ['0']) (hs : FractionText s fraction)
      (ht : ExponentText t exponent) :
      LiteralText (signed negative (whole ++ (s ++ t))) ⟨negative, whole, fraction, exponent⟩

/-! Values -/

inductive ScalarText : Text → Value → Prop where
  | null : ScalarText "null".toList .null
  | bool {b : Bool} : ScalarText (if b then "true".toList else "false".toList) (.bool b)
  | number {s : Text} {l : Literal} {n : Number} (h : LiteralText s l) (hn : l.value = some n) :
      ScalarText s (.number n)
  | string {s t : Text} (h : StringText s t) : ScalarText ('"' :: (s ++ ['"'])) (.string t)

section
variable {α : Type} (P : Text → α → Prop)

inductive Spaced : Text → α → Prop where
  | around {a b s : Text} {x : α} (ha : Spaces a) (h : P s x) (hb : Spaces b) :
      Spaced (a ++ (s ++ b)) x

/-- One item or more, with commas between them. -/
inductive ListText : Text → List α → Prop where
  | single {s : Text} {x : α} (h : Spaced P s x) : ListText s [x]
  | cons {s t : Text} {x : α} {xs : List α} (h : Spaced P s x) (ht : ListText t xs) :
      ListText (s ++ ',' :: t) (x :: xs)

/-- What stands between the brackets of an array or the braces of an object. -/
inductive InsideText : Text → List α → Prop where
  | empty {s : Text} (h : Spaces s) : InsideText s []
  | list {s : Text} {xs : List α} (h : ListText P s xs) : InsideText s xs

inductive MemberText : Text → Text × α → Prop where
  | colon {s key a b t : Text} {x : α} (hkey : StringText s key) (ha : Spaces a) (hb : Spaces b)
      (ht : P t x) : MemberText ('"' :: (s ++ '"' :: (a ++ ':' :: (b ++ t)))) (key, x)

end

/-- The members that are left of those that are written: for each key the last one. -/
structure KeepsLast (written members : List (Text × Value)) : Prop where
  ordered : Ordered members
  lookup : ∀ key, members.lookup key = written.reverse.lookup key

/-- The texts of a value that is nested no deeper than `depth`. -/
def ValueText : (depth : Nat) → Text → Value → Prop
  | 0, s, v => ScalarText s v
  | depth + 1, s, v =>
    ScalarText s v ∨
    (∃ inside vs, InsideText (ValueText depth) inside vs ∧
      s = '[' :: (inside ++ [']']) ∧ v = .array vs) ∨
    ∃ inside written members, InsideText (MemberText (ValueText depth)) inside written ∧
      KeepsLast written members ∧ s = '\x7b' :: (inside ++ ['\x7d']) ∧ v = .object members

/-- A text that is JSON, and the value it stands for. -/
abbrev IsJson (depth : Nat) : Text → Value → Prop := Spaced (ValueText depth)

end QueryShorthand.Json
