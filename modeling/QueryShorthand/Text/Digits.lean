import QueryShorthand.Text.Pieces

/-! Digits, decimal and hexadecimal, and the numbers they make. -/

namespace QueryShorthand
set_option autoImplicit false

def digitValue (c : Char) : Nat := c.toNat - '0'.toNat

def digitsValue (s : Text) : Nat := s.foldl (fun n c => 10 * n + digitValue c) 0

def decimal (n : Nat) : Text := Nat.toDigits 10 n

theorem digitsValue_decimal (n : Nat) : digitsValue (decimal n) = n :=
  Nat.ofDigitChars_ten_toDigits

theorem decimal_inj {m n : Nat} (h : decimal m = decimal n) : m = n := by
  rw [← digitsValue_decimal m, h, digitsValue_decimal]

theorem isDigit_of_mem_decimal {n : Nat} {c : Char} (h : c ∈ decimal n) : c.isDigit :=
  Nat.isDigit_of_mem_toDigits (by decide) (by decide) h

theorem decimal_ne_nil (n : Nat) : decimal n ≠ [] := Nat.toDigits_ne_nil

theorem head_decimal_of_pos {n : Nat} (h : 0 < n) : (decimal n).head? ≠ some '0' := by
  induction n using Nat.strongRecOn with
  | _ n ih =>
    by_cases hsmall : n < 10
    · have hone : ∀ m < 10, 0 < m → (decimal m).head? ≠ some '0' := by decide
      exact hone n hsmall h
    · have hten : 10 ≤ n := Nat.le_of_not_lt hsmall
      have hdigits : decimal n = decimal (n / 10) ++ [Nat.digitChar (n % 10)] :=
        Nat.toDigits_of_base_le (by decide) hten
      obtain ⟨d, ds, hd⟩ := List.exists_cons_of_ne_nil (decimal_ne_nil (n / 10))
      have hhead : (decimal (n / 10)).head? ≠ some '0' := ih _ (by omega) (by omega)
      rw [hd] at hhead
      rw [hdigits, hd]
      exact hhead

namespace Hex

def lower (n : Nat) : Char := Nat.digitChar n

def upper (n : Nat) : Char := (Nat.digitChar n).toUpper

def value (c : Char) : Option Nat :=
  if '0' ≤ c ∧ c ≤ '9' then some (c.toNat - '0'.toNat)
  else if 'a' ≤ c ∧ c ≤ 'f' then some (c.toNat - 'a'.toNat + 10)
  else if 'A' ≤ c ∧ c ≤ 'F' then some (c.toNat - 'A'.toNat + 10)
  else none

theorem value_lower {n : Nat} (h : n < 16) : value (lower n) = some n := by
  revert n; decide

theorem value_upper {n : Nat} (h : n < 16) : value (upper n) = some n := by
  revert n; decide

end Hex

end QueryShorthand
