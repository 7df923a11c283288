import QueryShorthand.Plan
import QueryShorthand.Proofs.Paths

/-! What shorthand strings mean, said without a tree: reading their chunks moves a cursor
through absolute paths, and labels are written where the cursor stands. -/

namespace QueryShorthand
set_option autoImplicit false

/-- The cursor behind a chunk, and what the chunk writes there. -/
structure Moment where
  cursor : Path
  aliasName : Option Text
  filter : Option (Text × Text)
  deriving DecidableEq

def Chunk.moment (base here : Path) (c : Chunk) : Moment :=
  match c.kind with
  | .start | .descend => ⟨here ++ [c.text], none, none⟩
  | .sibling => ⟨base ++ [c.text], none, none⟩
  | .label =>
    match Label.ofText c.text with
    | .ok (.filter key value) => ⟨here, none, some (key, value)⟩
    | .ok (.aliased target name) => ⟨here ++ pieces '.' target, some name, none⟩
    | .error _ => ⟨here, none, none⟩

def Batch.momentsFrom (base : Path) : Path → Batch → List Moment
  | _, [] => []
  | here, c :: cs =>
    let m := c.moment base here
    m :: momentsFrom base m.cursor cs

def cursorBehind (here : Path) (ms : List Moment) : Path :=
  (ms.getLast?.map Moment.cursor).getD here

/-- The cursor where a batch begins is its base. -/
def momentsOfBatches (here : Path) : List Batch → List Moment
  | [] => []
  | b :: bs =>
    let ms := Batch.momentsFrom here here b
    ms ++ momentsOfBatches (cursorBehind here ms) bs

/-- Every string begins at the root. -/
def momentsOfSpec (spec : Text) : List Moment :=
  match tokenize spec with
  | .ok bs => momentsOfBatches [] bs
  | .error _ => []

def moments (specs : List Text) : List Moment := specs.flatMap momentsOfSpec

def firstReach (ms : List Moment) (p : Path) : Nat := ms.findIdx fun m => p.isPrefixOf m.cursor

def aliasesAt (ms : List Moment) (p : Path) : List Text :=
  (ms.filter (·.cursor = p)).filterMap Moment.aliasName

def filtersAt (ms : List Moment) (p : Path) : List (Text × Text) :=
  (ms.filter (·.cursor = p)).filterMap Moment.filter

/-- The cursor has been at a path or below it. -/
def Seen (ms : List Moment) (p : Path) : Prop := ∃ m ∈ ms, p <+: m.cursor

theorem Chunk.moment_of_name {c : Chunk} (h : c.kind ≠ .label) (base here : Path) :
    c.moment base here = ⟨(if c.kind = .sibling then base else here) ++ [c.text], none, none⟩ := by
  unfold moment
  cases hkind : c.kind with
  | start => rfl
  | descend => rfl
  | sibling => rfl
  | label => exact absurd hkind h

theorem cursorBehind_cons (here : Path) (m : Moment) (ms : List Moment) :
    cursorBehind here (m :: ms) = cursorBehind m.cursor ms := by
  rw [cursorBehind, cursorBehind, List.getLast?_cons]
  cases ms.getLast? <;> rfl

theorem cursorBehind_append (here : Path) (ms ms' : List Moment) :
    cursorBehind here (ms ++ ms') = cursorBehind (cursorBehind here ms) ms' := by
  induction ms generalizing here with
  | nil => rfl
  | cons m ms ih => rw [List.cons_append, cursorBehind_cons, cursorBehind_cons, ih]

theorem firstReach_lt_iff {ms : List Moment} {p : Path} :
    firstReach ms p < ms.length ↔ Seen ms p := by
  simp [firstReach, Seen, List.findIdx_lt_length]

theorem firstReach_prefix {ms : List Moment} {p : Path} (h : Seen ms p) :
    ∃ m, ms[firstReach ms p]? = some m ∧ p <+: m.cursor := by
  have hlt := firstReach_lt_iff.2 h
  have hget := List.findIdx_getElem (w := hlt)
  exact ⟨_, List.getElem?_eq_getElem hlt, List.isPrefixOf_iff_prefix.1 hget⟩

theorem seen_append {ms ms' : List Moment} {p : Path} :
    Seen (ms ++ ms') p ↔ Seen ms p ∨ Seen ms' p := by
  simp only [Seen, List.mem_append, or_and_right, exists_or]

theorem firstReach_append_of_seen {ms ms' : List Moment} {p : Path} (h : Seen ms p) :
    firstReach (ms ++ ms') p = firstReach ms p := by
  have hlt := firstReach_lt_iff.2 h
  rw [firstReach] at hlt ⊢
  rw [List.findIdx_append, if_pos hlt, firstReach]

theorem firstReach_append_of_unseen {ms ms' : List Moment} {p : Path} (h : ¬ Seen ms p) :
    firstReach (ms ++ ms') p = ms.length + firstReach ms' p := by
  have hle := mt firstReach_lt_iff.1 h
  rw [firstReach] at hle
  rw [firstReach, List.findIdx_append, if_neg hle, Nat.add_comm]
  rfl

theorem aliasesAt_append (ms ms' : List Moment) (p : Path) :
    aliasesAt (ms ++ ms') p = aliasesAt ms p ++ aliasesAt ms' p := by
  simp only [aliasesAt, List.filter_append, List.filterMap_append]

theorem filtersAt_append (ms ms' : List Moment) (p : Path) :
    filtersAt (ms ++ ms') p = filtersAt ms p ++ filtersAt ms' p := by
  simp only [filtersAt, List.filter_append, List.filterMap_append]

theorem aliasesAt_singleton (m : Moment) (p : Path) :
    aliasesAt [m] p = if m.cursor = p then m.aliasName.toList else [] := by
  by_cases h : m.cursor = p
  · cases ha : m.aliasName <;> simp [aliasesAt, h, ha]
  · simp [aliasesAt, h]

theorem filtersAt_singleton (m : Moment) (p : Path) :
    filtersAt [m] p = if m.cursor = p then m.filter.toList else [] := by
  by_cases h : m.cursor = p
  · cases hf : m.filter <;> simp [filtersAt, h, hf]
  · simp [filtersAt, h]

theorem filter_cursor_eq_nil {ms : List Moment} {p : Path} (h : ¬ Seen ms p) :
    ms.filter (·.cursor = p) = [] := by
  apply List.filter_eq_nil_iff.2
  intro m hm he
  exact h ⟨m, hm, of_decide_eq_true he ▸ List.prefix_rfl⟩

theorem aliasesAt_eq_nil {ms : List Moment} {p : Path} (h : ¬ Seen ms p) : aliasesAt ms p = [] := by
  rw [aliasesAt, filter_cursor_eq_nil h, List.filterMap_nil]

theorem filtersAt_eq_nil {ms : List Moment} {p : Path} (h : ¬ Seen ms p) : filtersAt ms p = [] := by
  rw [filtersAt, filter_cursor_eq_nil h, List.filterMap_nil]

end QueryShorthand
