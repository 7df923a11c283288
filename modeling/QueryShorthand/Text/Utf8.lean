import QueryShorthand.Text.Pieces

/-! UTF-8. One function reads the character at the front of a byte string, or the bytes
that could have begun one and did not; reading strictly refuses the latter, reading
leniently puts U+FFFD in their place. -/

namespace QueryShorthand
set_option autoImplicit false

namespace Utf8

def encodeChar (c : Char) : List UInt8 :=
  let n := c.toNat
  if n < 0x80 then [.ofNat n]
  else if n < 0x800 then [.ofNat (0xC0 + n / 0x40), .ofNat (0x80 + n % 0x40)]
  else if n < 0x10000 then
    [.ofNat (0xE0 + n / 0x1000), .ofNat (0x80 + n / 0x40 % 0x40), .ofNat (0x80 + n % 0x40)]
  else
    [.ofNat (0xF0 + n / 0x40000), .ofNat (0x80 + n / 0x1000 % 0x40),
      .ofNat (0x80 + n / 0x40 % 0x40), .ofNat (0x80 + n % 0x40)]

def encode (s : Text) : List UInt8 := s.flatMap encodeChar

/-- What a first byte announces: the number of bytes that follow, the bits it carries
itself, and the range of the second byte, which keeps out overlong forms, surrogates and
what lies above U+10FFFF. -/
structure Lead where
  following : Nat
  bits : Nat
  low : Nat
  high : Nat

def lead (b : Nat) : Option Lead :=
  if b < 0x80 then some ⟨0, b, 0x80, 0xBF⟩
  else if 0xC2 ≤ b ∧ b ≤ 0xDF then some ⟨1, b - 0xC0, 0x80, 0xBF⟩
  else if 0xE0 ≤ b ∧ b ≤ 0xEF then
    some ⟨2, b - 0xE0, if b = 0xE0 then 0xA0 else 0x80, if b = 0xED then 0x9F else 0xBF⟩
  else if 0xF0 ≤ b ∧ b ≤ 0xF4 then
    some ⟨3, b - 0xF0, if b = 0xF0 then 0x90 else 0x80, if b = 0xF4 then 0x8F else 0xBF⟩
  else none

/-- Adds the bits of the following bytes. At a byte that is out of range it stops in
front of that byte. -/
def follow (bits : Nat) : Nat → (low high : Nat) → List UInt8 → Option Nat × List UInt8
  | 0, _, _, bytes => (some bits, bytes)
  | _ + 1, _, _, [] => (none, [])
  | n + 1, low, high, b :: bytes =>
    if low ≤ b.toNat ∧ b.toNat ≤ high then
      follow (bits * 0x40 + (b.toNat - 0x80)) n 0x80 0xBF bytes
    else (none, b :: bytes)

/-- The character at the front of `b :: bytes`, if there is one, and the bytes behind it. -/
def next (b : UInt8) (bytes : List UInt8) : Option Char × List UInt8 :=
  match lead b.toNat with
  | none => (none, bytes)
  | some l =>
    let (code, rest) := follow l.bits l.following l.low l.high bytes
    (code.map Char.ofNat, rest)

theorem length_follow_le (bits n low high : Nat) (bytes : List UInt8) :
    (follow bits n low high bytes).2.length ≤ bytes.length := by
  induction n generalizing bits low high bytes with
  | zero => simp [follow]
  | succ n ih =>
    cases bytes with
    | nil => simp [follow]
    | cons b bytes =>
      rw [follow]
      split
      · exact Nat.le_succ_of_le (ih ..)
      · simp

theorem length_next_le (b : UInt8) (bytes : List UInt8) :
    (next b bytes).2.length ≤ bytes.length := by
  unfold next
  split
  · simp
  · exact length_follow_le ..

/-- Every character of a byte string, with `none` for each stretch that is not one. -/
def chars : List UInt8 → List (Option Char)
  | [] => []
  | b :: bytes =>
    have := length_next_le b bytes
    (next b bytes).1 :: chars (next b bytes).2
termination_by bytes => bytes.length
decreasing_by simp; omega

def decode? (bytes : List UInt8) : Option Text := (chars bytes).mapM id

/-- Reads any byte string. A stretch that could have begun a character and was broken
off becomes one U+FFFD. -/
def decodeLossy (bytes : List UInt8) : Text := (chars bytes).map (·.getD '\uFFFD')

end Utf8

end QueryShorthand
