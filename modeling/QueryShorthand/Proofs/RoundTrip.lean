import Mathlib.Tactic.SplitIfs
import QueryShorthand.Json.Writer
import QueryShorthand.Proofs.Reading

/-! Values that are written read back as they were, since what is written for them is JSON that
stands for them. A number with a fraction or an exponent is rounded more than once when it is
read, so this is about values whose numbers are whole. -/

namespace QueryShorthand
set_option autoImplicit false

namespace Json

/-! Strings -/

theorem charText_escapeChar (c : Char) : CharText (escapeChar c) c := by
  have hescape : ∀ e ∈ escapes, CharText ['\\', e.1] e.2 := fun _ => .escape
  unfold escapeChar
  split_ifs with hquote hbackslash hb hf hn hr ht hcontrol
  · exact hquote ▸ hescape ('"', '"') (by decide)
  · exact hbackslash ▸ hescape ('\\', '\\') (by decide)
  · exact hb ▸ hescape ('b', '\x08') (by decide)
  · exact hf ▸ hescape ('f', '\x0c') (by decide)
  · exact hn ▸ hescape ('n', '\n') (by decide)
  · exact hr ▸ hescape ('r', '\r') (by decide)
  · exact ht ▸ hescape ('t', '\t') (by decide)
  · have hzero : HexDigit '0' 0 := ⟨by decide, .inl rfl⟩
    have hhigh : HexDigit (Hex.lower (c.toNat / 16)) (c.toNat / 16) := ⟨by omega, .inl rfl⟩
    have hlow : HexDigit (Hex.lower (c.toNat % 16)) (c.toNat % 16) := ⟨by omega, .inl rfl⟩
    have hchar := CharText.unit (.digits hzero hzero hhigh hlow) (.inl (by omega))
    have hcode : ((0 * 16 + 0) * 16 + c.toNat / 16) * 16 + c.toNat % 16 = c.toNat := by omega
    rw [hcode, Char.ofNat_toNat] at hchar
    exact hchar
  · exact .plain (Nat.le_of_not_lt hcontrol) hquote hbackslash

theorem stringText_escaped (s : Text) : StringText (s.flatMap escapeChar) s := by
  induction s with
  | nil => exact .nil
  | cons c s ih => exact .cons (charText_escapeChar c) ih

/-! Numbers -/

/-- Integers of 64 bits. Zero with a sign or a fraction is no integer to the reader, but is as
exact as one. -/
def Number.Whole : Number → Prop
  | .integer _ => True
  | .float _ x => x = Magnitude.zero

namespace Literal

/-- From -2 ^ 63 up to 2 ^ 64 - 1. -/
theorem bounds_of_integer? {i : Int} {l : Literal} (h : l.integer? = some i) :
    i < 0 ∧ 2 * i.natAbs ≤ wordLimit ∨ 0 ≤ i ∧ i.natAbs < wordLimit := by
  unfold integer? at h
  split at h
  · cases h
  · dsimp only at h
    split at h <;> split at h <;> cases h <;> omega

theorem integer?_decimal {i : Int}
    (h : i < 0 ∧ 2 * i.natAbs ≤ wordLimit ∨ 0 ≤ i ∧ i.natAbs < wordLimit) :
    integer? ⟨i < 0, decimal i.natAbs, none, none⟩ = some i := by
  unfold integer?
  simp only [Option.isSome_none, Bool.or_self, Bool.false_eq_true, if_false, digitsValue_decimal]
  rcases h with ⟨hneg, hfits⟩ | ⟨hpos, hfits⟩
  · rw [if_pos (decide_eq_true hneg), if_pos ⟨by omega, hfits⟩]
    congr
    omega
  · rw [if_neg (by simpa using hpos), if_pos hfits]
    congr
    omega

theorem integer?_of_value {i : Int} {l : Literal} (h : l.value = some (.integer i)) :
    l.integer? = some i := by
  unfold value at h
  split at h
  · cases h
    assumption
  · obtain ⟨x, -, he⟩ := Option.map_eq_some_iff.1 h
    cases he

theorem text_zero (negative : Bool) :
    (Number.float negative Magnitude.zero).text = signed negative "0.0".toList := by
  have : layout.write Magnitude.zero.shortest = "0.0".toList := by decide +kernel
  rw [Number.text, this]

theorem value_zero : ∀ negative : Bool,
    value ⟨negative, ['0'], some ['0'], none⟩ = some (.float negative Magnitude.zero) := by
  decide +kernel

theorem literalText_decimal (negative : Bool) (n : Nat) :
    LiteralText (signed negative (decimal n)) ⟨negative, decimal n, none, none⟩ := by
  have hdigits : IsDigits (decimal n) := ⟨decimal_ne_nil n, fun _ => isDigit_of_mem_decimal⟩
  have hzero : (decimal n).head? = some '0' → decimal n = ['0'] := by
    intro hhead
    rcases Nat.eq_zero_or_pos n with rfl | hpos
    · rfl
    · exact absurd hhead (head_decimal_of_pos hpos)
  have hparts : LiteralText (signed negative (decimal n ++ ([] ++ [])))
      ⟨negative, decimal n, none, none⟩ := .parts hdigits hzero .none .none
  rwa [List.append_nil, List.append_nil] at hparts

theorem literalText_zero (negative : Bool) :
    LiteralText (signed negative "0.0".toList) ⟨negative, ['0'], some ['0'], none⟩ := by
  have hdigits : IsDigits ['0'] := ⟨List.cons_ne_nil _ _, List.forall_mem_singleton.2 rfl⟩
  exact .parts hdigits (fun _ => rfl) (.some hdigits) .none

theorem exists_literalText {n : Number} (hreadable : n.Readable) (hwhole : n.Whole) :
    ∃ l, LiteralText n.text l ∧ l.value = some n := by
  cases n with
  | integer i =>
    obtain ⟨l, hl⟩ := hreadable
    have hinteger := integer?_decimal (bounds_of_integer? (integer?_of_value hl))
    exact ⟨_, literalText_decimal _ _, by rw [value, hinteger]⟩
  | float negative x =>
    obtain rfl : x = Magnitude.zero := hwhole
    rw [text_zero]
    exact ⟨_, literalText_zero negative, value_zero negative⟩

end Literal

/-! Lists of items -/

section
variable {α : Type} (P : Text → α → Prop) (write : α → Text)

/-- What follows the first item of a list. -/
def behind (xs : List α) : Text := xs.flatMap fun x => ',' :: write x

variable {P write}

theorem spaced_of {s : Text} {x : α} (h : P s x) : Spaced P s x := by
  have hspaced := Spaced.around (a := []) (b := []) (by simp [Spaces]) h (by simp [Spaces])
  rwa [List.nil_append, List.append_nil] at hspaced

theorem listText_behind {x : α} {xs : List α} (h : ∀ y ∈ x :: xs, P (write y) y) :
    ListText P (write x ++ behind write xs) (x :: xs) := by
  induction xs generalizing x with
  | nil =>
    rw [behind, List.flatMap_nil, List.append_nil]
    exact .single (spaced_of (h x List.mem_cons_self))
  | cons y ys ih =>
    obtain ⟨hx, hys⟩ := List.forall_mem_cons.1 h
    exact .cons (spaced_of hx) (ih hys)

end

/-! Values -/

namespace Value

/-- All numbers in the value are whole. -/
inductive Whole : Value → Prop
  | null : Whole .null
  | bool {b : Bool} : Whole (.bool b)
  | number {n : Number} (whole : n.Whole) : Whole (.number n)
  | string {s : Text} : Whole (.string s)
  | array {vs : List Value} (items : ∀ v ∈ vs, Whole v) : Whole (.array vs)
  | object {members : List (Text × Value)} (values : ∀ m ∈ members, Whole m.2) :
      Whole (.object members)

def memberText (m : Text × Value) : Text := quoted m.1 ++ ':' :: m.2.text

theorem text_array (v : Value) (vs : List Value) :
    (array (v :: vs)).text = '[' :: (v.text ++ behind text vs ++ [']']) := by
  have hbehind (vs : List Value) : itemsBehind vs = behind text vs ++ [']'] := by
    induction vs with
    | nil => rfl
    | cons v vs ih => simp [itemsBehind, ih, behind]
  rw [text, hbehind, List.append_assoc]

theorem text_object (m : Text × Value) (members : List (Text × Value)) :
    (object (m :: members)).text =
      '\x7b' :: (memberText m ++ behind memberText members ++ ['\x7d']) := by
  have hbehind (members : List (Text × Value)) :
      membersBehind members = behind memberText members ++ ['\x7d'] := by
    induction members with
    | nil => rfl
    | cons m members ih => simp [membersBehind, ih, behind, memberText]
  simp [text, hbehind, memberText]

end Value

theorem memberText_text {P : Text → Value → Prop} {m : Text × Value} (h : P m.2.text m.2) :
    MemberText P (Value.memberText m) m := by
  have hmember := MemberText.colon (a := []) (b := []) (stringText_escaped m.1) (by simp [Spaces])
    (by simp [Spaces]) h
  simpa [Value.memberText, quoted] using hmember

theorem keepsLast_of_ordered {members : List (Text × Value)} (h : Ordered members) :
    KeepsLast members members := by
  have hall : Ordered ([] ++ members) := h
  rw [keepsLast_iff, insertAll_of_ordered hall, List.nil_append]

/-- What is written for a value is a text of it. -/
theorem valueText_text {depth : Nat} {v : Value} (h : Fits depth v) (hw : v.Whole) :
    ValueText depth v.text v := by
  have hempty {α : Type} {P : Text → α → Prop} : InsideText P [] [] := .empty (by simp [Spaces])
  induction h with
  | null => exact .of_scalar .null
  | @bool depth b =>
    have htext : (Value.bool b).text = if b then "true".toList else "false".toList := by
      cases b <;> rfl
    exact htext ▸ .of_scalar .bool
  | number readable =>
    cases hw with
    | number whole =>
      obtain ⟨l, hl, hvalue⟩ := Literal.exists_literalText readable whole
      exact .of_scalar (.number hl hvalue)
  | string => exact .of_scalar (.string (stringText_escaped _))
  | @array depth vs _ ih =>
    cases hw with
    | array whole =>
      have hitems : ∀ v ∈ vs, ValueText depth v.text v := fun v hv => ih v hv (whole v hv)
      refine .inr (.inl ?_)
      cases vs with
      | nil => exact ⟨[], [], hempty, rfl, rfl⟩
      | cons v vs => exact ⟨_, _, .list (listText_behind hitems), Value.text_array v vs, rfl⟩
  | @object depth members ordered _ ih =>
    cases hw with
    | object whole =>
      have hmembers : ∀ m ∈ members, MemberText (ValueText depth) (Value.memberText m) m :=
        fun m hm => memberText_text (ih m hm (whole m hm))
      refine .inr (.inr ?_)
      cases members with
      | nil => exact ⟨[], [], [], hempty, keepsLast_of_ordered ordered, rfl, rfl⟩
      | cons m members =>
        exact ⟨_, _, _, .list (listText_behind hmembers), keepsLast_of_ordered ordered,
          Value.text_object m members, rfl⟩

theorem read_text {depth : Nat} {v : Value} (h : Fits depth v) (hw : v.Whole) :
    read depth v.text = some v :=
  read_eq_some_iff.2 (spaced_of (valueText_text h hw))

end Json

end QueryShorthand
