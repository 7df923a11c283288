import QueryShorthand.Proofs.Scalars

/-! The reader of JSON against the grammar. Readers of lists take lists of whatever the readers
of their items take, so the depth of a value carries the argument from the items to the value. -/

namespace QueryShorthand
set_option autoImplicit false

namespace Json

theorem keepsLast_iff {written members : List (Text × Value)} :
    KeepsLast written members ↔ insertAll [] written = members := by
  have hall : Ordered (insertAll [] written) := Ordered.insertAll .nil
  have hlookup : ∀ key, (insertAll [] written).lookup key = written.reverse.lookup key := by
    intro key
    rw [lookup_insertAll, List.lookup_nil, Option.or_none]
  constructor
  · intro h
    exact hall.ext h.ordered fun key => (hlookup key).trans (h.lookup key).symm
  · rintro rfl
    exact ⟨hall, hlookup⟩

/-! Lists of items -/

section
variable {α : Type}

/-- A reader of items takes the texts of the grammar with spaces in front of them, each in front
of anything that does not go on with a number. -/
structure Reads (item : Text → Option (α × Text)) (P : Text → α → Prop) : Prop where
  sound {s rest : Text} {x : α} (h : item s = some (x, rest)) :
    ∃ a t, Spaces a ∧ P t x ∧ s = a ++ (t ++ rest)
  complete {a t rest : Text} {x : α} (ha : Spaces a) (ht : P t x) (hrest : Stops inNumber rest) :
    item (a ++ (t ++ rest)) = some (x, rest)

/-- Marks that end a list. -/
abbrev Closing (close : Char) : Prop :=
  isBlank close = false ∧ close ≠ ',' ∧ inNumber close = false

theorem stops_spaces {b rest : Text} (hb : Spaces b) (hrest : Stops inNumber rest) :
    Stops inNumber (b ++ rest) := by
  cases b with
  | nil => exact hrest
  | cons d b =>
    have hblank := hb d List.mem_cons_self
    simp only [List.mem_cons, List.not_mem_nil, or_false] at hblank
    rcases hblank with rfl | rfl | rfl | rfl <;> exact stops_cons.2 rfl

variable {item : Text → Option (α × Text)} {P : Text → α → Prop} {close : Char}
  {s rest inside : Text} {xs : List α}

theorem listText_of_items (hitem : Reads item P) (h : items item close s = some (xs, rest)) :
    ∃ inside, ListText P inside xs ∧ s = inside ++ close :: rest := by
  induction hn : s.length using Nat.strongRecOn generalizing s xs rest with
  | _ n ih =>
    rw [items] at h
    split at h
    · cases h
    next x behind hread =>
      obtain ⟨a, t, ha, ht, rfl⟩ := hitem.sound hread
      obtain ⟨b, hb, hbehind⟩ := exists_spaces behind
      split at h
      · cases h
      next c tail htail =>
        rw [htail] at hbehind
        split at h
        next hclose =>
          cases h
          exact ⟨_, .single (.around ha ht hb), by simp [hbehind, hclose]⟩
        next =>
          split at h
          next hcomma =>
            obtain ⟨⟨xs', rest'⟩, htaken, he⟩ := Option.map_eq_some_iff.1 h
            cases he
            obtain ⟨inside, hinside, rfl⟩ := ih _ (hn ▸ hcomma.2) htaken rfl
            exact ⟨_, .cons (.around ha ht hb) hinside, by simp [hbehind, hcomma.1]⟩
          next => cases h

theorem items_append (hitem : Reads item P) (hclose : Closing close)
    (h : ListText P inside xs) (rest : Text) :
    items item close (inside ++ close :: rest) = some (xs, rest) := by
  obtain ⟨hblank, hcomma, hnumber⟩ := hclose
  induction h with
  | single h =>
    cases h with
    | @around a b s x ha hs hb =>
      have hread := hitem.complete ha hs (stops_spaces hb (stops_cons (t := rest).2 hnumber))
      have hskip := skipBlank_append (s := close :: rest) hb (stops_cons.2 hblank)
      simp only [List.append_assoc]
      rw [items, hread]
      simp only [hskip, if_true]
  | @cons s t x xs h ht ih =>
    cases h with
    | @around a b s x ha hs hb =>
      have hread := hitem.complete ha hs
        (stops_spaces hb (stops_cons (a := ',') (t := t ++ close :: rest).2 (by decide)))
      have hskip := skipBlank_append (s := ',' :: (t ++ close :: rest)) hb
        (stops_cons.2 (by decide))
      have hshorter : (t ++ close :: rest).length <
          (a ++ (s ++ (b ++ ',' :: (t ++ close :: rest)))).length := by
        simp only [List.length_append, List.length_cons]
        omega
      simp only [List.append_assoc, List.cons_append]
      rw [items, hread]
      simp only [hskip, if_neg hcomma.symm, hshorter, and_self, if_true, ih, Option.map_some]

theorem insideText_of_enclosed (hitem : Reads item P)
    (h : enclosed item close s = some (xs, rest)) :
    ∃ inside, InsideText P inside xs ∧ s = inside ++ close :: rest := by
  obtain ⟨a, ha, hs⟩ := exists_spaces s
  unfold enclosed at h
  split at h
  · cases h
  next c tail htail =>
    split at h
    next hclose =>
      cases h
      rw [htail, hclose] at hs
      exact ⟨a, .empty ha, hs⟩
    next =>
      obtain ⟨inside, hinside, he⟩ := listText_of_items hitem h
      exact ⟨inside, .list hinside, he⟩

theorem InsideText.forall_mem {Q : α → Prop} (h : InsideText P inside xs)
    (hitem : ∀ s x, P s x → Q x) : ∀ x ∈ xs, Q x := by
  have hspaced {s : Text} {x : α} (hs : Spaced P s x) : Q x := by
    cases hs with
    | around _ hs _ => exact hitem _ _ hs
  cases h with
  | empty => simp
  | list h =>
    induction h with
    | single h => exact List.forall_mem_singleton.2 (hspaced h)
    | cons h _ ih => exact List.forall_mem_cons.2 ⟨hspaced h, ih⟩

/-- What an item begins with is neither a space nor the end of the list. -/
def Opens (P : Text → α → Prop) (close : Char) : Prop :=
  ∀ t x, P t x → ∃ c t', t = c :: t' ∧ isBlank c = false ∧ c ≠ close

theorem ListText.head (hopens : Opens P close) (h : ListText P inside xs) (rest : Text) :
    ∃ a c t, Spaces a ∧ inside ++ rest = a ++ c :: t ∧ isBlank c = false ∧ c ≠ close := by
  have hspaced {s u : Text} {x : α} (hs : Spaced P s x) :
      ∃ a c t, Spaces a ∧ s ++ u = a ++ c :: t ∧ isBlank c = false ∧ c ≠ close := by
    cases hs with
    | around ha hs hb =>
      obtain ⟨c, t, rfl, hc⟩ := hopens _ _ hs
      exact ⟨_, c, _, ha, by simp; rfl, hc⟩
  cases h with
  | single h => exact hspaced h
  | cons h _ =>
    rw [List.append_assoc]
    exact hspaced h

theorem enclosed_append (hitem : Reads item P) (hclose : Closing close) (hopens : Opens P close)
    (h : InsideText P inside xs) (rest : Text) :
    enclosed item close (inside ++ close :: rest) = some (xs, rest) := by
  cases h with
  | empty ha =>
    rw [enclosed, skipBlank_append ha (stops_cons.2 hclose.1)]
    exact if_pos rfl
  | list h =>
    obtain ⟨a, c, t, ha, heq, hblank, hne⟩ := h.head hopens (close :: rest)
    have hskip := skipBlank_append (s := c :: t) ha (stops_cons.2 hblank)
    rw [← heq] at hskip
    rw [enclosed, hskip]
    dsimp only
    rw [if_neg hne, items_append hitem hclose h rest]

end

section
variable {α : Type} {value : Text → Option (α × Text)} {P : Text → α → Prop}

theorem reads_member (hvalue : Reads value P) : Reads (member value) (MemberText P) where
  sound {s rest m} h := by
    obtain ⟨⟨key, behind⟩, hkey, h⟩ := Option.bind_eq_some_iff.1 h
    obtain ⟨inside, hinside, hs⟩ := string_eq_some_iff.1 hkey
    obtain ⟨a, ha, hfront⟩ := exists_spaces s
    obtain ⟨b, hb, hcolon⟩ := exists_spaces behind
    dsimp only at h
    split at h
    next tail htail =>
      obtain ⟨⟨x, rest'⟩, hx, he⟩ := Option.map_eq_some_iff.1 h
      cases he
      obtain ⟨c, t, hc, ht, rfl⟩ := hvalue.sound hx
      refine ⟨a, _, ha, .colon hinside hb hc ht, ?_⟩
      rw [hfront, hs, hcolon, htail]
      simp
    next => cases h
  complete {a t rest m} ha ht hrest := by
    cases ht with
    | @colon s key b c t x hkey hb hc ht =>
      have hskip := skipBlank_append
        (s := '"' :: (s ++ '"' :: (b ++ ':' :: (c ++ (t ++ rest))))) ha (stops_cons.2 (by decide))
      have hstring (u : Text) : string ('"' :: (s ++ '"' :: u)) = some (key, u) :=
        string_eq_some_iff.2 ⟨s, hkey, rfl⟩
      have hcolon := skipBlank_append (s := ':' :: (c ++ (t ++ rest))) hb (stops_cons.2 (by decide))
      simp only [member, List.cons_append, List.append_assoc, hskip, hstring,
        Option.bind_eq_bind, Option.bind_some, hcolon, hvalue.complete hc ht hrest, Option.map_some]

end

/-! Values -/

section
variable {s t rest : Text} {v : Value} {depth : Nat}

theorem value_eq_skipBlank {a : Text} (ha : Spaces a) (hs : Stops isBlank s) :
    value depth (a ++ s) = value depth s := by
  unfold value
  rw [skipBlank_append ha hs, skipBlank_of_stops hs]

theorem value_scalar {c : Char} (hblank : isBlank c = false) (hc : c ∉ ['[', ']', '\x7b']) :
    value depth (c :: s) = scalar (c :: s) := by
  simp only [List.mem_cons, List.not_mem_nil, or_false, not_or] at hc
  unfold value
  rw [skipBlank_of_stops (stops_cons.2 hblank)]
  split
  next heq => exact absurd (List.cons.inj heq).1 hc.1
  next heq => exact absurd (List.cons.inj heq).1 hc.2.2
  next heq => exact absurd (List.cons.inj heq).1 hc.1
  next heq => exact absurd (List.cons.inj heq).1 hc.2.2
  · rfl

theorem value_array :
    value (depth + 1) ('[' :: s) =
      (enclosed (value depth) ']' s).map fun (vs, rest) => (.array vs, rest) := rfl

theorem value_object :
    value (depth + 1) ('\x7b' :: s) =
      (enclosed (member (value depth)) '\x7d' s).map fun (ms, rest) => (.ofMembers ms, rest) := rfl

theorem ValueText.of_scalar (h : ScalarText t v) : ValueText depth t v := by
  cases depth with
  | zero => exact h
  | succ depth => exact .inl h

theorem opens_value : Opens (ValueText depth) ']' := by
  have hscalar {t : Text} {v : Value} (h : ScalarText t v) :
      ∃ c t', t = c :: t' ∧ isBlank c = false ∧ c ≠ ']' := by
    obtain ⟨c, t', rfl, hblank, hc⟩ := h.head
    exact ⟨c, t', rfl, hblank, fun he => hc (by simp [he])⟩
  intro t v h
  cases depth with
  | zero => exact hscalar h
  | succ depth =>
    rcases h with h | ⟨inside, vs, -, rfl, -⟩ | ⟨inside, written, members, -, -, rfl, -⟩
    · exact hscalar h
    · exact ⟨'[', _, rfl, by decide⟩
    · exact ⟨'\x7b', _, rfl, by decide⟩

theorem opens_member : Opens (MemberText (ValueText depth)) '\x7d' := by
  intro t m h
  cases h with
  | colon => exact ⟨'"', _, rfl, by decide⟩

theorem value_append_scalar (h : ScalarText t v) (hrest : Stops inNumber rest) :
    value depth (t ++ rest) = some (v, rest) := by
  have hread := scalar_append h hrest
  obtain ⟨c, t', rfl, hblank, hc⟩ := h.head
  rw [List.cons_append] at hread ⊢
  rw [value_scalar hblank hc, hread]

/-- Of a reader of values it is enough to know what it does where the first value begins. -/
theorem reads_of_skipBlank
    (hsound : ∀ {s rest : Text} {v : Value}, value depth s = some (v, rest) →
      ∃ t, ValueText depth t v ∧ skipBlank s = t ++ rest)
    (hcomplete : ∀ {t rest : Text} {v : Value}, ValueText depth t v → Stops inNumber rest →
      value depth (t ++ rest) = some (v, rest)) :
    Reads (value depth) (ValueText depth) where
  sound {s rest v} h := by
    obtain ⟨a, ha, hs⟩ := exists_spaces s
    obtain ⟨t, ht, hskip⟩ := hsound h
    exact ⟨a, t, ha, ht, hskip ▸ hs⟩
  complete {a t rest v} ha ht hrest := by
    have hread := hcomplete ht hrest
    obtain ⟨c, t', rfl, hblank, -⟩ := opens_value t v ht
    rw [List.cons_append] at hread ⊢
    rw [value_eq_skipBlank ha (stops_cons.2 hblank), hread]

theorem scalarText_of_value (h : value 0 s = some (v, rest)) :
    ∃ t, ScalarText t v ∧ skipBlank s = t ++ rest := by
  unfold value at h
  split at h
  · cases h
  · cases h
  · contradiction
  · contradiction
  · exact scalarText_of_scalar h

section
variable (hreads : Reads (value depth) (ValueText depth))
include hreads

theorem valueText_of_value (h : value (depth + 1) s = some (v, rest)) :
    ∃ t, ValueText (depth + 1) t v ∧ skipBlank s = t ++ rest := by
  unfold value at h
  split at h
  · contradiction
  · contradiction
  next heq htext =>
    cases heq
    obtain ⟨⟨vs, behind⟩, hvs, he⟩ := Option.map_eq_some_iff.1 h
    cases he
    obtain ⟨inside, hinside, he⟩ := insideText_of_enclosed hreads hvs
    exact ⟨_, .inr (.inl ⟨inside, vs, hinside, rfl, rfl⟩), by simp [htext, he]⟩
  next heq htext =>
    cases heq
    obtain ⟨⟨written, behind⟩, hwritten, he⟩ := Option.map_eq_some_iff.1 h
    cases he
    obtain ⟨inside, hinside, he⟩ := insideText_of_enclosed (reads_member hreads) hwritten
    exact ⟨_, .inr (.inr ⟨inside, written, _, hinside, keepsLast_iff.2 rfl, rfl, rfl⟩),
      by simp [htext, he]⟩
  · obtain ⟨t, ht, he⟩ := scalarText_of_scalar h
    exact ⟨t, .inl ht, he⟩

theorem value_append (ht : ValueText (depth + 1) t v) (hrest : Stops inNumber rest) :
    value (depth + 1) (t ++ rest) = some (v, rest) := by
  rcases ht with h | ⟨inside, vs, h, rfl, rfl⟩ | ⟨inside, written, members, h, hkeeps, rfl, rfl⟩
  · exact value_append_scalar h hrest
  · have hread := enclosed_append hreads (by decide) opens_value h rest
    rw [List.cons_append, List.append_assoc, List.singleton_append, value_array, hread]
    rfl
  · have hread := enclosed_append (reads_member hreads) (by decide) opens_member h rest
    rw [List.cons_append, List.append_assoc, List.singleton_append, value_object, hread,
      ← keepsLast_iff.1 hkeeps]
    rfl

end

/-- The reader of values takes the texts of values and nothing else. -/
theorem reads_value (depth : Nat) : Reads (value depth) (ValueText depth) := by
  induction depth with
  | zero => exact reads_of_skipBlank scalarText_of_value value_append_scalar
  | succ depth ih => exact reads_of_skipBlank (valueText_of_value ih) (value_append ih)

theorem fits_of_scalarText (h : ScalarText t v) : Fits depth v := by
  cases h with
  | null => exact .null
  | bool => exact .bool
  | number _ hn => exact .number ⟨_, hn⟩
  | string => exact .string

theorem fits_of_valueText (h : ValueText depth t v) : Fits depth v := by
  induction depth generalizing t v with
  | zero => exact fits_of_scalarText h
  | succ depth ih =>
    rcases h with h | ⟨inside, vs, h, -, rfl⟩ | ⟨inside, written, members, h, hkeeps, -, rfl⟩
    · exact fits_of_scalarText h
    · exact .array (h.forall_mem fun _ _ => ih)
    · have hwritten : ∀ m ∈ written, Fits depth m.2 := by
        refine h.forall_mem fun s m hm => ?_
        cases hm with
        | colon _ _ _ ht => exact ih ht
      rw [← keepsLast_iff.1 hkeeps, ← Value.ofMembers_eq]
      exact .ofMembers hwritten

/-- What is read is JSON, and all JSON is read. -/
theorem read_eq_some_iff : read depth s = some v ↔ IsJson depth s v := by
  have hreads := reads_value depth
  constructor
  · intro h
    unfold read at h
    split at h
    next v' rest hvalue =>
      split at h
      next hend =>
        cases h
        obtain ⟨a, t, ha, ht, rfl⟩ := hreads.sound hvalue
        obtain ⟨b, hb, hrest⟩ := exists_spaces rest
        rw [hend, List.append_nil] at hrest
        exact .around ha ht (hrest ▸ hb)
      next => cases h
    next => cases h
  · rintro ⟨ha, ht, hb⟩
    have hstops := stops_spaces hb stops_nil
    have hend : skipBlank _ = [] := List.dropWhile_eq_nil_iff.2 (spaces_iff.1 hb)
    rw [List.append_nil] at hstops
    rw [read, hreads.complete ha ht hstops]
    exact if_pos hend

theorem fits_of_read (h : read depth s = some v) : Fits depth v := by
  cases read_eq_some_iff.1 h with
  | around _ ht _ => exact fits_of_valueText ht

end

end Json

end QueryShorthand
