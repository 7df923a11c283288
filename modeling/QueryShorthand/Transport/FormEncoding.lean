import QueryShorthand.Text.Digits
import QueryShorthand.Text.Utf8

/-! The form encoding of text in a query string: letters, digits and `*-._` stand for
themselves, `+` stands for a space, and every other byte is written as `%` and two upper-case
hexadecimal digits. -/

namespace QueryShorthand.FormEncoding
set_option autoImplicit false

def isPlain (b : UInt8) : Bool :=
  let c := Char.ofNat b.toNat
  c.isAlphanum || c == '*' || c == '-' || c == '.' || c == '_'

def encodeByte (b : UInt8) : Text :=
  if isPlain b then [Char.ofNat b.toNat]
  else if b.toNat = 0x20 then ['+']
  else ['%', Hex.upper (b.toNat / 16), Hex.upper (b.toNat % 16)]

def encode (s : Text) : Text := (Utf8.encode s).flatMap encodeByte

/-- A query string with one more pair. Only an empty one needs nothing in between. -/
def addPair (query : Option Text) (name value : Text) : Text :=
  (match query with
    | none | some [] => []
    | some q => q ++ ['&']) ++
    encode name ++ '=' :: encode value

/-- A percent sign without two hexadecimal digits behind it stands for itself. -/
def decodeBytes : Text → List UInt8
  | [] => []
  | '%' :: a :: b :: s =>
    match Hex.value a, Hex.value b with
    | some m, some n => .ofNat (16 * m + n) :: decodeBytes s
    | _, _ => .ofNat '%'.toNat :: decodeBytes (a :: b :: s)
  | '+' :: s => .ofNat ' '.toNat :: decodeBytes s
  | c :: s => Utf8.encodeChar c ++ decodeBytes s

def decode? (s : Text) : Option Text := Utf8.decode? (decodeBytes s)

end QueryShorthand.FormEncoding
