import QueryShorthand.Proofs.Lookup
import QueryShorthand.Proofs.Replay

/-! Finding a field again. The names from the root down to a field, with dots between them,
are a string that comes back to it, unless a comma or an opening parenthesis is in one of
the names. Such a name can only stem from an alias: inside parentheses the two are literal. -/

namespace QueryShorthand
set_option autoImplicit false

/-! The names on the cursor are those of the chunks. -/

/-- What a chunk puts behind the cursor. -/
def Chunk.names (c : Chunk) : List Text :=
  match c.kind with
  | .label =>
    match Label.ofText c.text with
    | .ok (.aliased target _) => pieces '.' target
    | _ => []
  | _ => [c.text]

theorem Chunk.names_of_name {c : Chunk} (h : c.kind ≠ .label) : c.names = [c.text] := by
  unfold names
  split
  · contradiction
  · rfl

theorem Chunk.moment_cursor (base here : Path) (c : Chunk) :
    (c.moment base here).cursor = (if c.kind = .sibling then base else here) ++ c.names := by
  by_cases hkind : c.kind = .label
  · unfold moment names
    simp only [hkind]
    cases Label.ofText c.text with
    | error reason => simp
    | ok label => cases label <;> simp
  · rw [moment_of_name hkind, names_of_name hkind]

theorem Chunk.cursor_ne_nil {base here : Path} {c : Chunk} (h : here = [] → c.kind ≠ .label) :
    (c.moment base here).cursor ≠ [] := by
  rw [moment_cursor]
  by_cases hkind : c.kind = .label
  · have hne : here ≠ [] := fun he => h he hkind
    simp [hkind, hne]
  · simp [names_of_name hkind]

theorem Chunk.Legal.names {c : Chunk} (h : c.Legal) :
    ∀ s ∈ c.names, s ≠ [] ∧ '.' ∉ s ∧ ')' ∉ s := by
  by_cases hkind : c.kind = .label
  · obtain ⟨-, hbody⟩ := (legal_iff_of_label hkind).1 h
    unfold Chunk.names
    rw [hkind]
    dsimp only
    split
    · rename_i target name hlabel
      obtain ⟨hsplit, hempty, -⟩ := Label.ofText_eq_aliased hlabel
      obtain ⟨sep, -, heq⟩ := Label.splitSeparator_eq_some hsplit
      intro s hs
      refine ⟨?_, not_mem_of_mem_pieces hs, fun hparen => hbody ?_⟩
      · rintro rfl
        exact hempty hs
      · rw [heq, List.append_assoc]
        exact List.mem_append_left _ (mem_of_mem_pieces hs hparen)
    · simp
  · obtain ⟨htext, hname⟩ := (legal_iff_of_name hkind).1 h
    obtain ⟨hdot, -, -, hparen⟩ := forall_isNameChar_iff.1 hname
    rw [names_of_name hkind]
    intro s hs
    rw [List.mem_singleton.1 hs]
    exact ⟨htext, hdot, hparen⟩

section
variable {P : Text → Prop} {base here : Path}

theorem forall_mem_cursorBehind (hhere : ∀ s ∈ here, P s) {ms : List Moment}
    (hms : ∀ m ∈ ms, ∀ s ∈ m.cursor, P s) : ∀ s ∈ cursorBehind here ms, P s := by
  unfold cursorBehind
  cases hlast : ms.getLast? with
  | none => exact hhere
  | some m => exact hms m (List.mem_of_getLast? hlast)

theorem forall_mem_cursor_of_batch (hbase : ∀ s ∈ base, P s) (hhere : ∀ s ∈ here, P s) {b : Batch}
    (hb : ∀ c ∈ b, ∀ s ∈ c.names, P s) :
    ∀ m ∈ Batch.momentsFrom base here b, ∀ s ∈ m.cursor, P s := by
  induction b generalizing here with
  | nil => simp [Batch.momentsFrom]
  | cons c cs ih =>
    obtain ⟨hc, hcs⟩ := List.forall_mem_cons.1 hb
    have hcursor : ∀ s ∈ (c.moment base here).cursor, P s := by
      rw [Chunk.moment_cursor]
      intro s hs
      rcases List.mem_append.1 hs with hs | hs
      · split at hs
        · exact hbase s hs
        · exact hhere s hs
      · exact hc s hs
    exact List.forall_mem_cons.2 ⟨hcursor, ih hcursor hcs⟩

theorem forall_mem_cursor_of_batches (hhere : ∀ s ∈ here, P s) {bs : List Batch}
    (hbs : ∀ b ∈ bs, ∀ c ∈ b, ∀ s ∈ c.names, P s) :
    ∀ m ∈ momentsOfBatches here bs, ∀ s ∈ m.cursor, P s := by
  induction bs generalizing here with
  | nil => simp [momentsOfBatches]
  | cons b bs ih =>
    obtain ⟨hb, hrest⟩ := List.forall_mem_cons.1 hbs
    have hms := forall_mem_cursor_of_batch hhere hhere hb
    exact List.forall_mem_append.2 ⟨hms, ih (forall_mem_cursorBehind hhere hms) hrest⟩

end

theorem names_of_mem_moments {specs : List Text} {m : Moment} (hm : m ∈ moments specs) :
    ∀ s ∈ m.cursor, s ≠ [] ∧ '.' ∉ s ∧ ')' ∉ s := by
  obtain ⟨spec, -, hspec⟩ := List.mem_flatMap.1 hm
  unfold momentsOfSpec at hspec
  split at hspec
  · rename_i bs hbs
    have hlegal := (tokenize_eq_ok_iff.1 hbs).1.legal
    exact forall_mem_cursor_of_batches (by simp) (fun b hb c hc => (hlegal b hb c hc).names) m hspec
  · cases hspec

theorem Tree.Means.names {t : Tree} {specs : List Text} (h : t.Means (moments specs)) {i : Nat}
    (hi : 0 < i) (hlt : i < t.size) : ∀ s ∈ t.path i, s ≠ [] ∧ '.' ∉ s ∧ ')' ∉ s := by
  obtain ⟨m, hm, hbelow⟩ := h.seen i hi hlt
  intro s hs
  exact names_of_mem_moments hm s (hbelow.subset hs)

/-! Strings of names with dots between them -/

def descents (start : Nat) : Path → List Batch
  | [] => []
  | s :: names => [⟨.descend, s, start⟩] :: descents (start + s.length + 1) names

/-- The batches of a string that spells a path. -/
def spelled : Path → List Batch
  | [] => []
  | s :: names => [⟨.start, s, 0⟩] :: descents s.length names

theorem written_descents (start : Nat) (names : Path) :
    Batch.written (descents start names).flatten = names.flatMap ('.' :: ·) := by
  induction names generalizing start with
  | nil => rfl
  | cons s names ih => simp [descents, Chunk.written, ih]

theorem laid_descents (start : Nat) (names : Path) : Laid start (descents start names).flatten := by
  induction names generalizing start with
  | nil => trivial
  | cons s names ih => exact ⟨rfl, ih (start + s.length + 1)⟩

theorem mem_descents {start : Nat} {names : Path} {b : Batch} (hb : b ∈ descents start names) :
    ∃ s ∈ names, ∃ i, b = [⟨.descend, s, i⟩] := by
  induction names generalizing start with
  | nil => cases hb
  | cons s names ih =>
    rcases List.mem_cons.1 hb with rfl | hb
    · exact ⟨s, List.mem_cons_self, start, rfl⟩
    · obtain ⟨s', hs', he⟩ := ih hb
      exact ⟨s', List.mem_cons_of_mem s hs', he⟩

theorem planned_descents (start : Nat) (names : Path) :
    List.Forall₂ Batch.Planned (descents start names) (names.map fun s => [.descend s]) := by
  induction names generalizing start with
  | nil => exact .nil
  | cons s names ih => exact .cons (.cons rfl .nil) (ih (start + s.length + 1))

theorem tokenize_intercalate {s : Text} {names : Path}
    (hnames : ∀ s' ∈ s :: names, s' ≠ [] ∧ ∀ c ∈ s', isNameChar c) :
    tokenize (['.'].intercalate (s :: names)) = .ok (spelled (s :: names)) := by
  have hlegal {kind : ChunkKind} (hkind : kind ≠ .label) {s' : Text} (hs' : s' ∈ s :: names)
      (i : Nat) : Chunk.Legal ⟨kind, s', i⟩ :=
    (Chunk.legal_iff_of_name hkind).2 (hnames s' hs')
  rw [tokenize_eq_ok_iff, grammatical_iff]
  refine ⟨⟨⟨_, _, rfl, ⟨_, [], rfl, rfl, by simp⟩, fun b hb => ?_⟩, fun b hb => ?_, ?_⟩, ?_⟩
  · obtain ⟨s', -, i, rfl⟩ := mem_descents hb
    exact ⟨_, [], rfl, rfl, by simp⟩
  · rcases List.mem_cons.1 hb with rfl | hb
    · simpa using hlegal (by simp) List.mem_cons_self 0
    · obtain ⟨s', hs', i, rfl⟩ := mem_descents hb
      simpa using hlegal (by simp) (List.mem_cons_of_mem s hs') i
  · refine ⟨rfl, ?_⟩
    rw [Nat.zero_add]
    exact laid_descents s.length names
  · rw [intercalate_cons_eq, spelled, List.flatten_cons, Batch.written_append, written_descents]
    simp [Chunk.written]

theorem Plan.ofSpec_intercalate {names : Path} (hne : names ≠ [])
    (hnames : ∀ s ∈ names, s ≠ [] ∧ ∀ c ∈ s, isNameChar c) :
    Plan.ofSpec (['.'].intercalate names) = .ok (names.map fun s => [.descend s]) := by
  cases names with
  | nil => exact absurd rfl hne
  | cons s names =>
    refine ofSpec_eq_ok_iff.2 ⟨_, tokenize_intercalate hnames, ?_⟩
    exact .cons (.cons rfl .nil) (planned_descents s.length names)

namespace Tree

theorem resolve_of_child {t : Tree} {id c : Nat} {s : Text} (hdot : '.' ∉ s)
    (hc : t.child id s = some c) : t.resolve id s = (t, c) := by
  rw [resolve, pieces_of_not_mem hdot, List.foldl_cons, List.foldl_nil]
  simp only [enter, hc]

/-- Going down by names that are all there adds nothing. -/
theorem foldl_followBatch_of_foldlM {t : Tree} {n i : Nat} {names : Path}
    (hdot : ∀ s ∈ names, '.' ∉ s) (h : names.foldlM t.child n = some i) :
    (names.map fun s => [Step.descend s]).foldl followBatch (t, n) = (t, i) := by
  induction names generalizing n with
  | nil => exact congrArg (t, ·) (Option.some.inj h)
  | cons s names ih =>
    obtain ⟨hs, hnames⟩ := List.forall_mem_cons.1 hdot
    rw [List.foldlM_cons] at h
    obtain ⟨c, hc, hrest⟩ := Option.bind_eq_some_iff.1 h
    have hstep : followBatch (t, n) [.descend s] = (t, c) := resolve_of_child hs hc
    rw [List.map_cons, List.foldl_cons, hstep]
    exact ih hnames hrest

theorem WellFormed.foldl_followBatch_path {t : Tree} (h : t.WellFormed) {i : Nat} (hi : i < t.size) :
    ((t.path i).map fun s => [Step.descend s]).foldl followBatch (t, root) = (t, i) := by
  have hclimbs := (h.climbs_root_iff hi).2 rfl
  exact foldl_followBatch_of_foldlM (h.dot_not_mem_of_climbs hclimbs)
    (h.foldlM_child_eq_some_iff.2 hclimbs)

theorem WellFormed.parseField_path {t : Tree} (h : t.WellFormed) {i : Nat} (hi : 0 < i)
    (hlt : i < t.size) (hnames : ∀ s ∈ t.path i, s ≠ [] ∧ ∀ c ∈ s, isNameChar c) :
    t.parseField (['.'].intercalate (t.path i)) = .ok (t, i) := by
  have hplan := Plan.ofSpec_intercalate (h.path_ne_nil hi hlt) hnames
  exact parseField_eq_ok_iff.2 ⟨_, hplan, h.foldl_followBatch_path hlt⟩

/-- The path of a field with one name more leads to the child of that name, new or not. -/
theorem WellFormed.parseField_path_concat {t : Tree} (h : t.WellFormed) {i : Nat} (hi : i < t.size)
    {s : Text} (hnames : ∀ s' ∈ t.path i ++ [s], s' ≠ [] ∧ ∀ c ∈ s', isNameChar c) :
    t.parseField (['.'].intercalate (t.path i ++ [s])) = .ok (t.resolve i s) := by
  refine parseField_eq_ok_iff.2 ⟨_, Plan.ofSpec_intercalate (by simp) hnames, ?_⟩
  rw [apply, List.map_append, List.foldl_append, h.foldl_followBatch_path hi]
  rfl

end Tree

theorem paren_not_mem_intercalate {names : Path} (hnames : ∀ s ∈ names, ')' ∉ s) :
    ')' ∉ ['.'].intercalate names := by
  cases names with
  | nil => simp
  | cons s names =>
    obtain ⟨hs, hrest⟩ := List.forall_mem_cons.1 hnames
    rw [intercalate_cons_eq]
    simpa [hs] using hrest

/-- A label closes a parenthesis, so a string without one is read as nothing but names. -/
theorem isNameChar_of_tokenize {spec : Text} {bs : List Batch} (hbs : tokenize spec = .ok bs)
    (hparen : ')' ∉ spec) : ∀ b ∈ bs, ∀ c ∈ b, ∀ s ∈ c.names, ∀ d ∈ s, isNameChar d := by
  obtain ⟨hgrammar, rfl⟩ := tokenize_eq_ok_iff.1 hbs
  intro b hb c hc
  have hkind : c.kind ≠ .label := by
    intro hlabel
    apply hparen
    refine List.mem_flatMap.2 ⟨c, List.mem_flatten.2 ⟨b, hb, hc⟩, ?_⟩
    simp [Chunk.written, hlabel]
  rw [Chunk.names_of_name hkind, List.forall_mem_singleton]
  exact ((Chunk.legal_iff_of_name hkind).1 (hgrammar.legal b hb c hc)).2

theorem Tree.Means.isNameChar_of_parseField {t : Tree} {ms : List Moment} (h : t.Means ms)
    {spec : Text} {here : Tree × Nat} (hp : t.parseField spec = .ok here) (hparen : ')' ∉ spec)
    (hsize : 0 < t.size) : ∀ s ∈ here.1.path here.2, ∀ d ∈ s, isNameChar d := by
  rw [(h.follows_parseField hsize hp).path]
  obtain ⟨plan, hplan, -⟩ := parseField_eq_ok_iff.1 hp
  obtain ⟨bs, hbs, -⟩ := Plan.ofSpec_eq_ok_iff.1 hplan
  rw [momentsOfSpec, hbs]
  exact forall_mem_cursorBehind (by simp)
    (forall_mem_cursor_of_batches (by simp) (isNameChar_of_tokenize hbs hparen))

theorem means_of_parseFields {specs : List Text} {t : Tree} (h : parseFields specs = .ok t) :
    t.Means (moments specs) := by
  unfold parseFields at h
  split at h
  · rename_i u hu
    cases h
    exact Tree.means_empty.parseFields (by simp) hu
  · cases h

/-- A field that strings have created is found again by the names on its path, and the tree
stays as it is, exactly when none of these names holds a comma or an opening parenthesis. -/
theorem parseField_path_iff {specs : List Text} {t : Tree} (h : parseFields specs = .ok t) {i : Nat}
    (hi : 0 < i) (hlt : i < t.size) :
    t.parseField (['.'].intercalate (t.path i)) = .ok (t, i) ↔
      ∀ s ∈ t.path i, ',' ∉ s ∧ '(' ∉ s := by
  have hm := means_of_parseFields h
  have hnames := hm.names hi hlt
  constructor
  · intro hp s hs
    have hparen := paren_not_mem_intercalate fun s hs => (hnames s hs).2.2
    have hchars := hm.isNameChar_of_parseField hp hparen (Nat.zero_lt_of_lt hlt) s hs
    obtain ⟨-, hcomma, hopen, -⟩ := forall_isNameChar_iff.1 hchars
    exact ⟨hcomma, hopen⟩
  · intro hplain
    refine hm.wellFormed.parseField_path hi hlt fun s hs => ?_
    obtain ⟨hne, hdot, hclose⟩ := hnames s hs
    obtain ⟨hcomma, hopen⟩ := hplain s hs
    exact ⟨hne, forall_isNameChar_iff.2 ⟨hdot, hcomma, hopen, hclose⟩⟩

/-- The target of an alias and a string that goes on below it. -/
def addressed : Tree := Tree.empty.after (.parseFields ["a(b é.c as x),d".toList, "a.b é".toList])

theorem parseField_path_iff_addressed :
    parseFields ["a(b é.c as x),d".toList, "a.b é".toList] = .ok addressed ∧
      3 < addressed.size ∧ addressed.path 3 = ["a".toList, "b é".toList, "c".toList] ∧
      (∀ s ∈ addressed.path 3, ',' ∉ s ∧ '(' ∉ s) ∧
      addressed.parseField (['.'].intercalate (addressed.path 3)) = .ok (addressed, 3) := by
  have hspecs : parseFields ["a(b é.c as x),d".toList, "a.b é".toList] = .ok addressed := by
    decide +kernel
  have hlt : 3 < addressed.size := by decide +kernel
  have hplain : ∀ s ∈ addressed.path 3, ',' ∉ s ∧ '(' ∉ s := by decide +kernel
  exact ⟨hspecs, hlt, by decide +kernel, hplain,
    (parseField_path_iff hspecs (by decide) hlt).2 hplain⟩

/-- A field whose name holds a comma: the alias `x` is given to `b,c` below `a`. -/
def commaInName : Tree := Tree.empty.after (.parseFields ["a(b,c as x)".toList])

/-- The names on its path are read as a field `b` below `a` and a sibling of it, which are
both new. -/
theorem parseField_path_commaInName :
    parseFields ["a(b,c as x)".toList] = .ok commaInName ∧ 2 < commaInName.size ∧
      commaInName.path 2 = ["a".toList, "b,c".toList] ∧
      ∃ t, commaInName.parseField (['.'].intercalate (commaInName.path 2)) = .ok (t, 4) ∧
        t ≠ commaInName := by
  refine ⟨by decide +kernel, by decide +kernel, by decide +kernel,
    commaInName.after (.parseField "a.b,c".toList), by decide +kernel, by decide +kernel⟩

end QueryShorthand
