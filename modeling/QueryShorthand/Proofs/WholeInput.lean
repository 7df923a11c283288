import QueryShorthand.Proofs.Lines

/-! Reading the standard input as one text. Every line is checked on its own, but a line feed is
part of no longer sequence of bytes, so the lines are in order exactly when the whole input is,
and nothing that a line feed breaks off could have been completed behind it. -/

namespace QueryShorthand
set_option autoImplicit false

namespace Utf8

/-- Every character is written as the standard strings have it: in the shortest form, and only
scalar values are characters. -/
theorem encodeChar_eq (c : Char) : encodeChar c = String.utf8EncodeChar c := by
  have hvalid : c.toNat < 0xD800 ∨ 0xDFFF < c.toNat ∧ c.toNat < 0x110000 := c.valid
  have hval : c.val.toNat = c.toNat := rfl
  rw [String.utf8EncodeChar, hval]
  rcases Nat.lt_or_ge c.toNat 0x80 with hn | hn
  · rw [encodeChar_of_lt hn, if_pos (by omega)]
  rcases Nat.lt_or_ge c.toNat 0x800 with hn' | hn'
  · rw [encodeChar_two hn hn', if_neg (by omega), if_pos (by omega),
      Nat.mod_eq_of_lt (b := 0x20) (by omega), Nat.add_comm 0xC0, Nat.add_comm 0x80]
  rcases Nat.lt_or_ge c.toNat 0x10000 with hn'' | hn''
  · rw [encodeChar_three hn' hn'', if_neg (by omega), if_neg (by omega), if_pos (by omega),
      Nat.mod_eq_of_lt (b := 0x10) (by omega), Nat.add_comm 0xE0]
    simp only [Nat.add_comm 0x80]
  · rw [encodeChar_four hn'', if_neg (by omega), if_neg (by omega), if_neg (by omega),
      Nat.mod_eq_of_lt (b := 0x08) (by omega), Nat.add_comm 0xF0]
    simp only [Nat.add_comm 0x80]

theorem eq_encode_iff {bytes : List UInt8} {s : String} :
    bytes = encode s.toList ↔ bytes.toByteArray = s.toByteArray := by
  have hencode : encode s.toList = s.toList.flatMap String.utf8EncodeChar :=
    List.flatMap_congr fun c _ => encodeChar_eq c
  rw [hencode, ← String.utf8Encode_toList, List.utf8Encode, List.toByteArray_inj]

theorem fromUTF8?_eq_some_iff {bytes : List UInt8} {s : String} :
    String.fromUTF8? bytes.toByteArray = some s ↔ bytes = encode s.toList := by
  rw [eq_encode_iff, String.fromUTF8?]
  split
  · rw [Option.some.injEq, ← String.toByteArray_inj]
    rfl
  · rename_i hinvalid
    simp only [reduceCtorEq, false_iff]
    intro hbytes
    exact hinvalid (hbytes ▸ s.isValidUTF8)

theorem fromUTF8?_ne_none_iff {a : ByteArray} : String.fromUTF8? a ≠ none ↔ a.IsValidUTF8 := by
  rw [String.fromUTF8?]
  split <;> simp_all

end Utf8

theorem readFields_eq_fromUTF8? (bytes : List UInt8) :
    readFields bytes = (String.fromUTF8? bytes.toByteArray).map fun s => fieldLines s.toList := by
  apply Option.ext
  intro F
  rw [readFields_eq_some_iff, Option.map_eq_some_iff]
  constructor
  · rintro ⟨s, hbytes, rfl⟩
    refine ⟨String.ofList s, ?_, ?_⟩
    · rw [Utf8.fromUTF8?_eq_some_iff, String.toList_ofList, hbytes]
    · rw [String.toList_ofList]
  · rintro ⟨s, hs, rfl⟩
    exact ⟨s.toList, Utf8.fromUTF8?_eq_some_iff.1 hs, rfl⟩

/-- What is left of a line when the white space at both ends is cut off. -/
structure CutTo (line f : Text) : Prop where
  trimmed : Trimmed f
  margins : ∃ a b, IsMargin a ∧ IsMargin b ∧ line = a ++ f ++ b

/-- The fields are what is left of the lines of the text, where something is left. -/
def HoldsFields (s : Text) (F : List Text) : Prop :=
  ∃ lines cut, lines ≠ [] ∧ (∀ l ∈ lines, '\n' ∉ l) ∧ s = ['\n'].intercalate lines ∧
    List.Forall₂ CutTo lines cut ∧ F = cut.filter (· ≠ [])

theorem cutTo_iff {line f : Text} (h : '\n' ∉ line) : CutTo line f ↔ f = trim line := by
  constructor
  · rintro ⟨htrimmed, a, b, ha, hb, rfl⟩
    exact (trim_margins ha.blank hb.blank htrimmed).symm
  · rintro rfl
    exact ⟨trimmed_trim line, exists_margins h⟩

theorem holdsFields_iff {s : Text} {F : List Text} : HoldsFields s F ↔ F = fieldLines s := by
  have hcut {lines cut : List Text} (hlines : ∀ l ∈ lines, '\n' ∉ l) :
      List.Forall₂ CutTo lines cut ↔ cut = lines.map trim := by
    constructor
    · intro h
      induction h with
      | nil => rfl
      | cons hl _ ih =>
        obtain ⟨hline, hrest⟩ := List.forall_mem_cons.1 hlines
        rw [List.map_cons, (cutTo_iff hline).1 hl, ih hrest]
    · rintro rfl
      rw [List.forall₂_map_right_iff, List.forall₂_same]
      exact fun l hl => (cutTo_iff (hlines l hl)).2 rfl
  constructor
  · rintro ⟨lines, cut, hne, hlines, rfl, h, rfl⟩
    rw [fieldLines, pieces_intercalate hne hlines, (hcut hlines).1 h]
  · rintro rfl
    have hlines : ∀ l ∈ pieces '\n' s, '\n' ∉ l := fun l => not_mem_of_mem_pieces
    exact ⟨_, _, pieces_ne_nil '\n' s, hlines, (intercalate_pieces '\n' s).symm,
      (hcut hlines).2 rfl, rfl⟩

theorem readFields_append (a b : List UInt8) :
    readFields (a ++ 0x0A :: b) =
      match readFields a, readFields b with
      | some F, some G => some (F ++ G)
      | _, _ => none := by
  simp only [readFields, pieces_append_sep, List.mapM_append]
  cases (pieces 0x0A a).mapM Utf8.decode? with
  | none => rfl
  | some ls =>
    cases (pieces 0x0A b).mapM Utf8.decode? with
    | none => rfl
    | some ms => simp

/-- Fields can be read from bytes exactly when these are UTF-8 as a whole, and they are the lines
of the whole text without the white space at their ends, as far as anything is left of them;
otherwise the command has nothing but the error to go on with. Two inputs with a line feed
between them are read one after the other, if both can be read. -/
theorem readFields_whole_input :
    (∀ bytes : List UInt8,
      (readFields bytes ≠ none ↔ bytes.toByteArray.IsValidUTF8) ∧
      (∀ F, readFields bytes = some F ↔
        ∃ s, String.fromUTF8? bytes.toByteArray = some s ∧ HoldsFields s.toList F) ∧
      ∀ uri flags, ((⟨uri, [], flags⟩ : Options).fieldsOr bytes = .error .notUtf8 ↔
          ¬ bytes.toByteArray.IsValidUTF8) ∧
        ∀ F, (⟨uri, [], flags⟩ : Options).fieldsOr bytes = .ok F ↔ readFields bytes = some F) ∧
    ∀ a b, readFields (a ++ 0x0A :: b) =
      match readFields a, readFields b with
      | some F, some G => some (F ++ G)
      | _, _ => none := by
  refine ⟨fun bytes => ?_, readFields_append⟩
  have hvalid : readFields bytes ≠ none ↔ bytes.toByteArray.IsValidUTF8 := by
    rw [readFields_eq_fromUTF8?, ne_eq, Option.map_eq_none_iff]
    exact Utf8.fromUTF8?_ne_none_iff
  refine ⟨hvalid, fun F => ?_, fun uri flags => ?_⟩
  · rw [readFields_eq_fromUTF8?, Option.map_eq_some_iff]
    simp only [holdsFields_iff, eq_comm]
  · rw [← hvalid, Options.fieldsOr, if_pos rfl]
    cases readFields bytes <;> simp

end QueryShorthand
