import QueryShorthand.Proofs.Encoding
import QueryShorthand.Transport.FormEncoding

/-! Pairs in a query string. Form encoding writes none of the characters that separate pairs from
one another or a query string from what is around it, and is undone by decoding. So a pair that
is put behind a query string is found there again, and the others are as they were. -/

namespace QueryShorthand
set_option autoImplicit false

namespace FormEncoding

theorem isPlain_iff {b : UInt8} : isPlain b ↔
    (Char.ofNat b.toNat).isAlphanum ∨ Char.ofNat b.toNat ∈ ['*', '-', '.', '_'] := by
  simp [isPlain, or_assoc]

theorem toNat_lt_of_isAlphanum {c : Char} (h : c.isAlphanum) : c.toNat < 0x80 := by
  have hlast {d : Char} (hd : c.val ≤ d.val) (hlt : d.toNat < 0x80) : c.toNat < 0x80 :=
    Nat.lt_of_le_of_lt (UInt32.le_iff_toNat_le.1 hd) hlt
  rcases Bool.or_eq_true_iff.1 h with halpha | hdigit
  · rcases Bool.or_eq_true_iff.1 halpha with hupper | hlower
    · exact hlast (of_decide_eq_true hupper).2 (by simp)
    · exact hlast (of_decide_eq_true (Bool.and_eq_true_iff.1 hlower).2) (by simp)
  · exact hlast (of_decide_eq_true (Bool.and_eq_true_iff.1 hdigit).2) (by simp)

theorem mem_encodeByte {b : UInt8} {c : Char} (h : c ∈ encodeByte b) :
    c.isAlphanum ∨ c ∈ ['*', '-', '.', '_', '+', '%'] := by
  have hupper : ∀ k < 16, (Hex.upper k).isAlphanum := by decide
  have hb := b.toNat_lt
  unfold encodeByte at h
  split at h
  · rename_i hplain
    rw [List.mem_singleton.1 h]
    exact (isPlain_iff.1 hplain).imp_right (List.mem_append_left ['+', '%'])
  · split at h
    · exact .inr (by simp_all)
    · simp only [List.mem_cons, List.not_mem_nil, or_false] at h
      rcases h with rfl | rfl | rfl
      · exact .inr (by simp)
      · exact .inl (hupper _ (by omega))
      · exact .inl (hupper _ (by omega))

theorem not_mem_encode {c : Char} (hc : ¬ c.isAlphanum)
    (hmark : c ∉ ['*', '-', '.', '_', '+', '%']) (s : Text) : c ∉ encode s := by
  intro h
  obtain ⟨b, -, hb⟩ := List.mem_flatMap.1 h
  exact (mem_encodeByte hb).elim hc hmark

theorem decodeBytes_cons {c : Char} (h : c ≠ '%') (h' : c ≠ '+') (s : Text) :
    decodeBytes (c :: s) = Utf8.encodeChar c ++ decodeBytes s := by
  rw [decodeBytes]
  · exact fun _ _ _ he => absurd he h
  · exact h'

theorem decodeBytes_encodeByte (b : UInt8) (s : Text) :
    decodeBytes (encodeByte b ++ s) = b :: decodeBytes s := by
  have hb := b.toNat_lt
  unfold encodeByte
  split
  · rename_i hplain
    have hc := isPlain_iff.1 hplain
    have hmarks : ∀ c ∈ ['*', '-', '.', '_'], c.toNat < 0x80 := by simp
    have hlt := hc.elim toNat_lt_of_isAlphanum (hmarks _)
    have hother : ∀ c ∈ ['%', '+'], ¬ (c.isAlphanum ∨ c ∈ ['*', '-', '.', '_']) := by simp
    have hpercent : Char.ofNat b.toNat ≠ '%' := fun he => hother '%' (by simp) (he ▸ hc)
    have hplus : Char.ofNat b.toNat ≠ '+' := fun he => hother '+' (by simp) (he ▸ hc)
    rw [List.singleton_append, decodeBytes_cons hpercent hplus, Utf8.encodeChar_of_lt hlt,
      Utf8.toNat_ofNat (.inl (by omega)), UInt8.ofNat_toNat]
    rfl
  · split
    · rename_i hspace
      have hbyte : .ofNat ' '.toNat = b := Utf8.ofNat_eq_byte hspace.symm
      rw [List.singleton_append, decodeBytes, hbyte]
    · have hbyte : .ofNat (16 * (b.toNat / 16) + b.toNat % 16) = b := Utf8.ofNat_eq_byte (by omega)
      have hhigh := Hex.value_upper (n := b.toNat / 16) (by omega)
      have hlow := Hex.value_upper (n := b.toNat % 16) (by omega)
      simp only [List.cons_append, List.nil_append, decodeBytes, hhigh, hlow, hbyte]

theorem decodeBytes_encode (s : Text) : decodeBytes (encode s) = Utf8.encode s := by
  have hbytes (bs : List UInt8) : decodeBytes (bs.flatMap encodeByte) = bs := by
    induction bs with
    | nil => rfl
    | cons b bs ih => rw [List.flatMap_cons, decodeBytes_encodeByte, ih]
  exact hbytes (Utf8.encode s)

theorem decode?_encode (s : Text) : decode? (encode s) = some s := by
  rw [decode?, decodeBytes_encode, Utf8.decode?_encode]

/-- The pairs of a query string. -/
def pairs : Option Text → List Text
  | none | some [] => []
  | some q => pieces '&' q

theorem addPair_cases (query : Option Text) (name value : Text) :
    (pairs query = [] ∧ addPair query name value = encode name ++ '=' :: encode value) ∨
      ∃ q, query = some q ∧ pairs query = pieces '&' q ∧
        addPair query name value = q ++ '&' :: (encode name ++ '=' :: encode value) := by
  match query with
  | none => exact .inl ⟨rfl, rfl⟩
  | some [] => exact .inl ⟨rfl, rfl⟩
  | some (c :: q) => exact .inr ⟨c :: q, rfl, rfl, by simp [addPair]⟩

theorem not_mem_pair {c : Char} (hc : ¬ c.isAlphanum)
    (hmark : c ∉ ['*', '-', '.', '_', '+', '%', '=']) (name value : Text) :
    c ∉ encode name ++ '=' :: encode value := by
  have hencoded := not_mem_encode hc fun hmem => hmark (List.mem_append_left ['='] hmem)
  have hequals : c ≠ '=' := fun he => hmark (by simp [he])
  simp [hencoded, hequals]

theorem pieces_addPair (query : Option Text) (name value : Text) :
    pieces '&' (addPair query name value) =
      pairs query ++ [encode name ++ '=' :: encode value] := by
  have hpair : '&' ∉ encode name ++ '=' :: encode value :=
    not_mem_pair (by decide) (by decide) name value
  rcases addPair_cases query name value with ⟨hpairs, h⟩ | ⟨q, -, hpairs, h⟩
  · rw [h, hpairs, pieces_of_not_mem hpair, List.nil_append]
  · rw [h, hpairs, pieces_append_sep, pieces_of_not_mem hpair]

theorem hash_not_mem_addPair {query : Option Text} (hquery : ∀ q ∈ query, '#' ∉ q)
    (name value : Text) : '#' ∉ addPair query name value := by
  have hpair : '#' ∉ encode name ++ '=' :: encode value :=
    not_mem_pair (by decide) (by decide) name value
  rcases addPair_cases query name value with ⟨-, h⟩ | ⟨q, hq, -, h⟩
  · rwa [h]
  · simp [h, hpair, hquery q hq]

end FormEncoding

end QueryShorthand
