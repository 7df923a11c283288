import Mathlib.Data.List.Forall2
import QueryShorthand.Text.Utf8

/-! Reading UTF-8 undoes writing it, and nothing else can be read: each character has one
form. A byte below 0x80 is part of no longer form, so text may be cut at an ASCII character
before it is read or afterwards. -/

namespace QueryShorthand
set_option autoImplicit false

theorem mapM_eq_some_iff {α β : Type} {f : α → Option β} {as : List α} {bs : List β} :
    as.mapM f = some bs ↔ List.Forall₂ (fun a b => f a = some b) as bs := by
  induction as generalizing bs with
  | nil => cases bs <;> simp
  | cons a as ih =>
    rw [List.mapM_cons, List.forall₂_cons_left_iff]
    simp only [← ih]
    cases f a with
    | none => simp
    | some b => cases as.mapM f <;> simp [eq_comm]

namespace Utf8

theorem toNat_ofNat {n : Nat} (h : n.isValidChar) : (Char.ofNat n).toNat = n := by
  rw [Char.ofNat, dif_pos h]
  rfl

theorem ofNat_eq_byte {b : UInt8} {n : Nat} (h : n = b.toNat) : UInt8.ofNat n = b := by
  rw [h, UInt8.ofNat_toNat]

theorem toNat_byte {n : Nat} (h : n < 0x100) : (UInt8.ofNat n).toNat = n := by
  rw [UInt8.toNat_ofNat', Nat.mod_eq_of_lt h]

section
variable {c : Char}

theorem encodeChar_of_lt (h : c.toNat < 0x80) : encodeChar c = [.ofNat c.toNat] := by
  simp only [encodeChar]
  rw [if_pos h]

theorem encodeChar_two (h : 0x80 ≤ c.toNat) (h' : c.toNat < 0x800) :
    encodeChar c = [.ofNat (0xC0 + c.toNat / 0x40), .ofNat (0x80 + c.toNat % 0x40)] := by
  simp only [encodeChar]
  rw [if_neg (Nat.not_lt.2 h), if_pos h']

theorem encodeChar_three (h : 0x800 ≤ c.toNat) (h' : c.toNat < 0x10000) :
    encodeChar c = [.ofNat (0xE0 + c.toNat / 0x1000), .ofNat (0x80 + c.toNat / 0x40 % 0x40),
      .ofNat (0x80 + c.toNat % 0x40)] := by
  simp only [encodeChar]
  rw [if_neg (by omega), if_neg (Nat.not_lt.2 h), if_pos h']

theorem encodeChar_four (h : 0x10000 ≤ c.toNat) :
    encodeChar c = [.ofNat (0xF0 + c.toNat / 0x40000), .ofNat (0x80 + c.toNat / 0x1000 % 0x40),
      .ofNat (0x80 + c.toNat / 0x40 % 0x40), .ofNat (0x80 + c.toNat % 0x40)] := by
  simp only [encodeChar]
  rw [if_neg (by omega), if_neg (by omega), if_neg (Nat.not_lt.2 h)]

theorem encodeChar_ne_nil (c : Char) : encodeChar c ≠ [] := by
  simp only [encodeChar]
  split
  · simp
  · split
    · simp
    · split <;> simp

end

/-! One character -/

theorem follow_zero_iff {bits low high code : Nat} {bytes rest : List UInt8} :
    follow bits 0 low high bytes = (some code, rest) ↔ bits = code ∧ bytes = rest := by
  simp [follow]

theorem follow_succ_iff {bits n low high code : Nat} {bytes rest : List UInt8} :
    follow bits (n + 1) low high bytes = (some code, rest) ↔
      ∃ b tail, bytes = b :: tail ∧ low ≤ b.toNat ∧ b.toNat ≤ high ∧
        follow (bits * 0x40 + (b.toNat - 0x80)) n 0x80 0xBF tail = (some code, rest) := by
  cases bytes with
  | nil => simp [follow]
  | cons b bytes =>
    rw [follow]
    split
    · rename_i h
      simp [h]
    · rename_i h
      simp only [Prod.mk.injEq, reduceCtorEq, false_and, List.cons.injEq, false_iff]
      rintro ⟨b', tail, ⟨rfl, rfl⟩, hlow, hhigh, -⟩
      exact h ⟨hlow, hhigh⟩

theorem next_iff {b : UInt8} {bytes rest : List UInt8} {c : Char} :
    next b bytes = (some c, rest) ↔
      ∃ l code, lead b.toNat = some l ∧
        follow l.bits l.following l.low l.high bytes = (some code, rest) ∧ Char.ofNat code = c := by
  unfold next
  cases lead b.toNat with
  | none => simp
  | some l =>
    simp only [Option.some.injEq, exists_and_left, exists_eq_left']
    rcases follow l.bits l.following l.low l.high bytes with ⟨code, rest'⟩
    cases code <;> simp [and_comm]

theorem lead_cases {b : Nat} {l : Lead} (h : lead b = some l) :
    (b < 0x80 ∧ l = ⟨0, b, 0x80, 0xBF⟩) ∨
    (0xC2 ≤ b ∧ b ≤ 0xDF ∧ l = ⟨1, b - 0xC0, 0x80, 0xBF⟩) ∨
    (0xE0 ≤ b ∧ b ≤ 0xEF ∧
      l = ⟨2, b - 0xE0, if b = 0xE0 then 0xA0 else 0x80, if b = 0xED then 0x9F else 0xBF⟩) ∨
    (0xF0 ≤ b ∧ b ≤ 0xF4 ∧
      l = ⟨3, b - 0xF0, if b = 0xF0 then 0x90 else 0x80, if b = 0xF4 then 0x8F else 0xBF⟩) := by
  unfold lead at h
  split at h
  · rename_i hb
    exact .inl ⟨hb, (Option.some.inj h).symm⟩
  · split at h
    · rename_i hb
      exact .inr (.inl ⟨hb.1, hb.2, (Option.some.inj h).symm⟩)
    · split at h
      · rename_i hb
        exact .inr (.inr (.inl ⟨hb.1, hb.2, (Option.some.inj h).symm⟩))
      · split at h
        · rename_i hb
          exact .inr (.inr (.inr ⟨hb.1, hb.2, (Option.some.inj h).symm⟩))
        · cases h

/-- What is read as a character is the one form in which it is written. -/
theorem eq_encodeChar_of_next {b : UInt8} {bytes rest : List UInt8} {c : Char}
    (h : next b bytes = (some c, rest)) : b :: bytes = encodeChar c ++ rest := by
  obtain ⟨l, code, hlead, hfollow, rfl⟩ := next_iff.1 h
  rcases lead_cases hlead with ⟨hb, rfl⟩ | ⟨hb, hb', rfl⟩ | ⟨hb, hb', rfl⟩ | ⟨hb, hb', rfl⟩
  · obtain ⟨rfl, rfl⟩ := follow_zero_iff.1 hfollow
    dsimp only
    have hcode := toNat_ofNat (n := b.toNat) (.inl (by omega))
    rw [encodeChar_of_lt (by omega), hcode, UInt8.ofNat_toNat]
    rfl
  · simp only [follow_succ_iff, follow_zero_iff] at hfollow
    obtain ⟨b₁, _, rfl, hlow, hhigh, rfl, rfl⟩ := hfollow
    have hcode := toNat_ofNat (n := (b.toNat - 0xC0) * 0x40 + (b₁.toNat - 0x80)) (.inl (by omega))
    rw [encodeChar_two (by omega) (by omega), hcode, ofNat_eq_byte (b := b) (by omega),
      ofNat_eq_byte (b := b₁) (by omega)]
    rfl
  · simp only [follow_succ_iff, follow_zero_iff] at hfollow
    obtain ⟨b₁, _, rfl, hlow, hhigh, b₂, _, rfl, hlow', hhigh', rfl, rfl⟩ := hfollow
    have hrange : 0x80 ≤ b₁.toNat ∧ b₁.toNat ≤ 0xBF := by
      split at hlow <;> split at hhigh <;> omega
    have hge : 0x20 ≤ (b.toNat - 0xE0) * 0x40 + (b₁.toNat - 0x80) := by
      split at hlow <;> omega
    have hcode := toNat_ofNat
      (n := ((b.toNat - 0xE0) * 0x40 + (b₁.toNat - 0x80)) * 0x40 + (b₂.toNat - 0x80)) (by
        unfold Nat.isValidChar
        split at hhigh <;> omega)
    rw [encodeChar_three (by omega) (by omega), hcode, ofNat_eq_byte (b := b) (by omega),
      ofNat_eq_byte (b := b₁) (by omega), ofNat_eq_byte (b := b₂) (by omega)]
    rfl
  · simp only [follow_succ_iff, follow_zero_iff] at hfollow
    obtain ⟨b₁, _, rfl, hlow, hhigh, b₂, _, rfl, hlow₂, hhigh₂, b₃, _, rfl, hlow₃, hhigh₃, rfl, rfl⟩ :=
      hfollow
    have hrange : 0x80 ≤ b₁.toNat ∧ b₁.toNat ≤ 0xBF := by
      split at hlow <;> split at hhigh <;> omega
    have hge : 0x10 ≤ (b.toNat - 0xF0) * 0x40 + (b₁.toNat - 0x80) := by
      split at hlow <;> omega
    have hlt : (b.toNat - 0xF0) * 0x40 + (b₁.toNat - 0x80) < 0x110 := by
      split at hhigh <;> omega
    have hcode := toNat_ofNat (n := (((b.toNat - 0xF0) * 0x40 + (b₁.toNat - 0x80)) * 0x40 +
      (b₂.toNat - 0x80)) * 0x40 + (b₃.toNat - 0x80)) (.inr (by omega))
    rw [encodeChar_four (by omega), hcode, ofNat_eq_byte (b := b) (by omega),
      ofNat_eq_byte (b := b₁) (by omega), ofNat_eq_byte (b := b₂) (by omega),
      ofNat_eq_byte (b := b₃) (by omega)]
    rfl

theorem follow_byte {bits n low high k : Nat} (hlow : low ≤ k) (hhigh : k ≤ high) (hk : k < 0x100)
    (bytes : List UInt8) : follow bits (n + 1) low high (.ofNat k :: bytes) =
      follow (bits * 0x40 + (k - 0x80)) n 0x80 0xBF bytes := by
  rw [follow, toNat_byte hk, if_pos ⟨hlow, hhigh⟩]

theorem next_byte {bits n low high k : Nat} (hk : k < 0x100)
    (hl : lead k = some ⟨n, bits, low, high⟩) {c : Char} {bytes rest : List UInt8}
    (h : follow bits n low high bytes = (some c.toNat, rest)) :
    next (.ofNat k) bytes = (some c, rest) :=
  next_iff.2 ⟨_, c.toNat, (toNat_byte hk).symm ▸ hl, h, Char.ofNat_toNat c⟩

theorem lead_two {k : Nat} (h : 2 ≤ k) (h' : k < 0x20) :
    lead (0xC0 + k) = some ⟨1, k, 0x80, 0xBF⟩ := by
  rw [lead, if_neg (by omega), if_pos (by omega), Nat.add_sub_cancel_left]

theorem lead_three {k : Nat} (h : k < 0x10) :
    lead (0xE0 + k) =
      some ⟨2, k, if k = 0 then 0xA0 else 0x80, if k = 0xD then 0x9F else 0xBF⟩ := by
  rw [lead, if_neg (by omega), if_neg (by omega), if_pos (by omega), Nat.add_sub_cancel_left]
  simp only [Nat.add_eq_left, show 0xE0 + k = 0xED ↔ k = 0xD by omega]

theorem lead_four {k : Nat} (h : k < 5) :
    lead (0xF0 + k) =
      some ⟨3, k, if k = 0 then 0x90 else 0x80, if k = 4 then 0x8F else 0xBF⟩ := by
  rw [lead, if_neg (by omega), if_neg (by omega), if_neg (by omega), if_pos (by omega),
    Nat.add_sub_cancel_left]
  simp only [Nat.add_eq_left, show 0xF0 + k = 0xF4 ↔ k = 4 by omega]

/-- What is written as a character is read as it, whatever stands behind. -/
theorem next_of_eq_encodeChar {c : Char} {b : UInt8} {bytes rest : List UInt8}
    (h : b :: bytes = encodeChar c ++ rest) : next b bytes = (some c, rest) := by
  have hvalid : c.toNat < 0xD800 ∨ 0xDFFF < c.toNat ∧ c.toNat < 0x110000 := c.valid
  rcases Nat.lt_or_ge c.toNat 0x80 with hn | hn
  · rw [encodeChar_of_lt hn, List.cons_append, List.nil_append, List.cons.injEq] at h
    obtain ⟨rfl, rfl⟩ := h
    exact next_byte (by omega) (if_pos hn) rfl
  rcases Nat.lt_or_ge c.toNat 0x800 with hn' | hn'
  · rw [encodeChar_two hn hn'] at h
    simp only [List.cons_append, List.nil_append, List.cons.injEq] at h
    obtain ⟨rfl, rfl⟩ := h
    apply next_byte (by omega) (lead_two (by omega) (by omega))
    rw [follow_byte (by omega) (by omega) (by omega), follow_zero_iff]
    exact ⟨by omega, rfl⟩
  rcases Nat.lt_or_ge c.toNat 0x10000 with hn'' | hn''
  · rw [encodeChar_three hn' hn''] at h
    simp only [List.cons_append, List.nil_append, List.cons.injEq] at h
    obtain ⟨rfl, rfl⟩ := h
    apply next_byte (by omega) (lead_three (by omega))
    rw [follow_byte (by split <;> omega) (by split <;> omega) (by omega),
      follow_byte (by omega) (by omega) (by omega), follow_zero_iff]
    exact ⟨by omega, rfl⟩
  · rw [encodeChar_four hn''] at h
    simp only [List.cons_append, List.nil_append, List.cons.injEq] at h
    obtain ⟨rfl, rfl⟩ := h
    apply next_byte (by omega) (lead_four (by omega))
    rw [follow_byte (by split <;> omega) (by split <;> omega) (by omega),
      follow_byte (by omega) (by omega) (by omega), follow_byte (by omega) (by omega) (by omega),
      follow_zero_iff]
    exact ⟨by omega, rfl⟩

theorem next_eq_some_iff {b : UInt8} {bytes rest : List UInt8} {c : Char} :
    next b bytes = (some c, rest) ↔ b :: bytes = encodeChar c ++ rest :=
  ⟨eq_encodeChar_of_next, next_of_eq_encodeChar⟩

/-! Byte strings -/

theorem chars_encodeChar_append (c : Char) (rest : List UInt8) :
    chars (encodeChar c ++ rest) = some c :: chars rest := by
  cases h : encodeChar c ++ rest with
  | nil => exact absurd (List.append_eq_nil_iff.1 h).1 (encodeChar_ne_nil c)
  | cons b bytes => rw [chars, next_eq_some_iff.2 h.symm]

@[simp] theorem encode_nil : encode [] = [] := rfl

@[simp] theorem encode_cons (c : Char) (s : Text) : encode (c :: s) = encodeChar c ++ encode s := rfl

@[simp] theorem encode_append (s t : Text) : encode (s ++ t) = encode s ++ encode t :=
  List.flatMap_append

theorem chars_encode (s : Text) : chars (encode s) = s.map some := by
  induction s with
  | nil => rw [encode_nil, chars, List.map_nil]
  | cons c s ih => rw [encode_cons, chars_encodeChar_append, ih, List.map_cons]

theorem eq_encode_of_chars {bytes : List UInt8} {s : Text} (h : chars bytes = s.map some) :
    bytes = encode s := by
  induction s generalizing bytes with
  | nil =>
    cases bytes with
    | nil => rfl
    | cons b bytes => simp [chars] at h
  | cons c s ih =>
    cases bytes with
    | nil => simp [chars] at h
    | cons b bytes =>
      rw [chars, List.map_cons, List.cons.injEq] at h
      rw [encode_cons, ← ih h.2]
      exact next_eq_some_iff.1 (Prod.ext h.1 rfl)

/-- Text is read from its own bytes and from no others. -/
theorem decode?_eq_some_iff {bytes : List UInt8} {s : Text} :
    decode? bytes = some s ↔ bytes = encode s := by
  have hchars : decode? bytes = some s ↔ chars bytes = s.map some := by
    rw [decode?, mapM_eq_some_iff, ← List.forall₂_eq_eq_eq, List.forall₂_map_right_iff]
    rfl
  rw [hchars]
  constructor
  · exact eq_encode_of_chars
  · rintro rfl
    exact chars_encode s

theorem decode?_encode (s : Text) : decode? (encode s) = some s := decode?_eq_some_iff.2 rfl

/-! Cutting at an ASCII character -/

theorem mem_encodeChar_iff {c : Char} {b : UInt8} (hb : b.toNat < 0x80) :
    b ∈ encodeChar c ↔ c.toNat = b.toNat := by
  have hbyte {k : Nat} (hk : k < 0x100) : b = .ofNat k ↔ b.toNat = k := by
    rw [← UInt8.toNat_inj, toNat_byte hk]
  have hvalid : c.toNat < 0xD800 ∨ 0xDFFF < c.toNat ∧ c.toNat < 0x110000 := c.valid
  rcases Nat.lt_or_ge c.toNat 0x80 with hn | hn
  · rw [encodeChar_of_lt hn, List.mem_singleton, hbyte (by omega), eq_comm]
  rcases Nat.lt_or_ge c.toNat 0x800 with hn' | hn'
  · rw [encodeChar_two hn hn', List.mem_pair, hbyte (by omega), hbyte (by omega)]
    omega
  rcases Nat.lt_or_ge c.toNat 0x10000 with hn'' | hn''
  · rw [encodeChar_three hn' hn'', List.mem_cons, List.mem_pair, hbyte (by omega),
      hbyte (by omega), hbyte (by omega)]
    omega
  · rw [encodeChar_four hn'', List.mem_cons, List.mem_cons, List.mem_pair, hbyte (by omega),
      hbyte (by omega), hbyte (by omega), hbyte (by omega)]
    omega

section
variable {sep : Char} (hsep : sep.toNat < 0x80)
include hsep

theorem mem_encodeChar_ascii_iff {c : Char} : .ofNat sep.toNat ∈ encodeChar c ↔ c = sep := by
  have hbyte := toNat_byte (n := sep.toNat) (by omega)
  rw [mem_encodeChar_iff (by omega), hbyte, Char.toNat_inj]

theorem mem_encode_ascii_iff {s : Text} : .ofNat sep.toNat ∈ encode s ↔ sep ∈ s := by
  rw [encode, List.mem_flatMap]
  simp only [mem_encodeChar_ascii_iff hsep, exists_eq_right]

theorem pieces_encode (s : Text) :
    pieces (.ofNat sep.toNat) (encode s) = (pieces sep s).map encode := by
  induction s with
  | nil => rfl
  | cons c s ih =>
    by_cases hc : c = sep
    · rw [hc, encode_cons, encodeChar_of_lt hsep, List.cons_append, List.nil_append,
        pieces_cons_self, pieces_cons_self, ih, List.map_cons, encode_nil]
    · have hbyte := mt (mem_encodeChar_ascii_iff hsep).1 hc
      rw [encode_cons, pieces_append_of_not_mem hbyte, ih, pieces_cons, if_neg hc]
      cases pieces sep s <;> rfl

theorem encode_intercalate (ps : List Text) :
    encode ([sep].intercalate ps) = [.ofNat sep.toNat].intercalate (ps.map encode) := by
  have hbehind (ps : List Text) : encode (ps.flatMap ([sep] ++ ·)) =
      (ps.map encode).flatMap ([.ofNat sep.toNat] ++ ·) := by
    induction ps with
    | nil => rfl
    | cons p ps ih =>
      rw [List.flatMap_cons, encode_append, ih, encode_append, encode_cons, encodeChar_of_lt hsep]
      rfl
  cases ps with
  | nil => rfl
  | cons p ps =>
    rw [intercalate_cons_eq, encode_append, hbehind, List.map_cons, intercalate_cons_eq]

/-- Reading the pieces of a byte string one by one is reading the whole and cutting then. -/
theorem mapM_decode?_pieces_iff {bytes : List UInt8} {ps : List Text} :
    (pieces (.ofNat sep.toNat) bytes).mapM decode? = some ps ↔
      ∃ s, bytes = encode s ∧ ps = pieces sep s := by
  have heach : (pieces (.ofNat sep.toNat) bytes).mapM decode? = some ps ↔
      pieces (.ofNat sep.toNat) bytes = ps.map encode := by
    simp only [mapM_eq_some_iff, decode?_eq_some_iff]
    exact List.forall₂_map_right_iff.symm.trans (by rw [List.forall₂_eq_eq_eq])
  rw [heach]
  constructor
  · intro h
    have hne : ps ≠ [] := by
      rintro rfl
      exact pieces_ne_nil _ _ h
    have hcut : ∀ p ∈ ps, sep ∉ p := by
      intro p hp hmem
      have hpiece := List.mem_map_of_mem (f := encode) hp
      rw [← h] at hpiece
      exact not_mem_of_mem_pieces hpiece ((mem_encode_ascii_iff hsep).2 hmem)
    refine ⟨[sep].intercalate ps, ?_, (pieces_intercalate hne hcut).symm⟩
    rw [encode_intercalate hsep, ← h, intercalate_pieces]
  · rintro ⟨s, rfl, rfl⟩
    exact pieces_encode hsep s

end

end Utf8

end QueryShorthand
