import Mathlib.Data.List.DropRight
import QueryShorthand.CommandLine.Outcome
import QueryShorthand.Proofs.Encoding
import QueryShorthand.Text.Spans

/-! Fields written one per line. A text lays out a list of fields when every line of it is
blank or holds the next field between margins; reading the lines gives back exactly the fields
that are laid out, and every text that can be read lays out what is read from it. -/

namespace QueryShorthand
set_option autoImplicit false

/-- Neither end is blank. -/
def Trimmed (s : Text) : Prop := Stops isBlank s ∧ Stops isBlank s.reverse

theorem trim_eq_rdropWhile (s : Text) : trim s = (s.dropWhile isBlank).rdropWhile isBlank := rfl

theorem trimmed_trim (s : Text) : Trimmed (trim s) := by
  constructor
  · intro c hc
    obtain ⟨rest, hrest⟩ := List.rdropWhile_prefix isBlank (s.dropWhile isBlank)
    rw [← trim_eq_rdropWhile] at hrest
    apply stops_dropWhile (s := s)
    rw [← hrest]
    exact List.mem_head?_append_of_mem_head? hc
  · rw [trim, List.reverse_reverse]
    exact stops_dropWhile

theorem mem_of_mem_trim {c : Char} {s : Text} (h : c ∈ trim s) : c ∈ s := by
  have hfront := List.rdropWhile_prefix isBlank (s.dropWhile isBlank)
  exact (List.dropWhile_suffix isBlank).subset (hfront.subset h)

section
variable {a b f : Text} (ha : ∀ c ∈ a, isBlank c) (hb : ∀ c ∈ b, isBlank c)
include ha hb

theorem trim_blank : trim (a ++ b) = [] := by
  have hall : ∀ c ∈ a ++ b, isBlank c := List.forall_mem_append.2 ⟨ha, hb⟩
  rw [trim, List.dropWhile_eq_nil_iff.2 hall]
  rfl

theorem trim_margins (hf : Trimmed f) : trim (a ++ f ++ b) = f := by
  by_cases hne : f = []
  · rw [hne, List.append_nil, trim_blank ha hb]
  · have hopens : Stops isBlank (f ++ b) := by
      intro c hc
      rw [List.head?_append_of_ne_nil f hne] at hc
      exact hf.1 c hc
    have hcloses : ∀ c ∈ b.reverse, isBlank c := fun c hc => hb c (List.mem_reverse.1 hc)
    rw [trim, List.append_assoc, dropWhile_append_of_stops ha hopens, List.reverse_append,
      dropWhile_append_of_stops hcloses hf.2, List.reverse_reverse]

end

/-- A field that can stand on a line of its own. -/
structure IsField (f : Text) : Prop where
  ne_nil : f ≠ []
  oneLine : '\n' ∉ f
  trimmed : Trimmed f

/-- White space that does not end the line. -/
def IsMargin (s : Text) : Prop := ∀ c ∈ s, isBlank c ∧ c ≠ '\n'

theorem IsMargin.blank {s : Text} (h : IsMargin s) : ∀ c ∈ s, isBlank c := fun c hc => (h c hc).1

theorem IsMargin.oneLine {s : Text} (h : IsMargin s) : '\n' ∉ s := fun hs => (h _ hs).2 rfl

theorem isMargin_nil : IsMargin [] := by simp [IsMargin]

def IsLineEnd (s : Text) : Prop := s = ['\n'] ∨ s = ['\r', '\n']

/-- The fields stand one on a line, in order. The last line has no line end. -/
inductive LaidOut : List Text → Text → Prop where
  | lastBlank {a : Text} (ha : IsMargin a) : LaidOut [] a
  | lastField {a b f : Text} (ha : IsMargin a) (hb : IsMargin b) : LaidOut [f] (a ++ f ++ b)
  | blank {F : List Text} {a e s : Text} (ha : IsMargin a) (he : IsLineEnd e)
      (hs : LaidOut F s) : LaidOut F (a ++ e ++ s)
  | field {f : Text} {F : List Text} {a b e s : Text} (ha : IsMargin a) (hb : IsMargin b)
      (he : IsLineEnd e) (hs : LaidOut F s) : LaidOut (f :: F) (a ++ f ++ b ++ e ++ s)

def fieldLines (s : Text) : List Text := ((pieces '\n' s).map trim).filter (· ≠ [])

theorem readFields_eq_some_iff {bytes : List UInt8} {F : List Text} :
    readFields bytes = some F ↔ ∃ s, bytes = Utf8.encode s ∧ F = fieldLines s := by
  have hfeed : '\n'.toNat < 0x80 := by decide
  have hlines (lines : List Text) :
      (pieces 0x0A bytes).mapM Utf8.decode? = some lines ↔
        ∃ s, bytes = Utf8.encode s ∧ lines = pieces '\n' s :=
    Utf8.mapM_decode?_pieces_iff hfeed
  simp only [readFields, Option.bind_eq_bind, Option.bind_eq_some_iff, hlines, Option.pure_def,
    Option.some.injEq]
  constructor
  · rintro ⟨_, ⟨s, hs, rfl⟩, rfl⟩
    exact ⟨s, hs, rfl⟩
  · rintro ⟨s, hs, rfl⟩
    exact ⟨_, ⟨s, hs, rfl⟩, rfl⟩

theorem isField_of_mem_fieldLines {s f : Text} (h : f ∈ fieldLines s) : IsField f := by
  obtain ⟨hline, hne⟩ := List.mem_filter.1 h
  obtain ⟨line, hpiece, rfl⟩ := List.mem_map.1 hline
  exact ⟨of_decide_eq_true hne, fun hmem => not_mem_of_mem_pieces hpiece (mem_of_mem_trim hmem),
    trimmed_trim line⟩

theorem fieldLines_of_oneLine {l : Text} (hl : '\n' ∉ l) :
    fieldLines l = [trim l].filter (· ≠ []) := by
  rw [fieldLines, pieces_of_not_mem hl, List.map_singleton]

theorem fieldLines_append {l : Text} (hl : '\n' ∉ l) (s : Text) :
    fieldLines (l ++ ['\n'] ++ s) = fieldLines l ++ fieldLines s := by
  rw [fieldLines_of_oneLine hl, List.append_assoc, List.singleton_append, fieldLines,
    pieces_append_sep, pieces_of_not_mem hl, List.map_append, List.filter_append]
  rfl

theorem fieldLines_intercalate {ls : List Text} (h : ∀ l ∈ ls, '\n' ∉ l) :
    fieldLines (['\n'].intercalate ls) = ls.flatMap fieldLines := by
  induction ls with
  | nil => rfl
  | cons l ls ih =>
    have hl := h l List.mem_cons_self
    have hls := ih fun k hk => h k (List.mem_cons_of_mem l hk)
    cases ls with
    | nil => simp
    | cons k ks =>
      rw [List.intercalate_cons_cons, fieldLines_append hl, hls]
      rfl

/-- The return of a line end is white space at the end of the line. -/
theorem fieldLines_lineEnd {l e : Text} (hl : '\n' ∉ l) (he : IsLineEnd e) (s : Text) :
    ∃ b, IsMargin b ∧ fieldLines (l ++ e ++ s) = fieldLines (l ++ b) ++ fieldLines s := by
  rcases he with rfl | rfl
  · exact ⟨[], isMargin_nil, by rw [fieldLines_append hl, List.append_nil]⟩
  · have hreturn : IsMargin ['\r'] := by simp [IsMargin]; decide
    have hline : '\n' ∉ l ++ ['\r'] := by simp [hl]
    refine ⟨['\r'], hreturn, ?_⟩
    rw [← fieldLines_append hline, List.append_assoc l ['\r']]
    rfl

section
variable {a b f : Text} (ha : IsMargin a) (hb : IsMargin b)
include ha hb

theorem IsMargin.append : IsMargin (a ++ b) := List.forall_mem_append.2 ⟨ha, hb⟩

theorem fieldLines_margin : fieldLines (a ++ b) = [] := by
  rw [fieldLines_of_oneLine (ha.append hb).oneLine, trim_blank ha.blank hb.blank]
  rfl

theorem fieldLines_field (hf : IsField f) : fieldLines (a ++ f ++ b) = [f] := by
  have hline : '\n' ∉ a ++ f ++ b := by simp [ha.oneLine, hf.oneLine, hb.oneLine]
  rw [fieldLines_of_oneLine hline, trim_margins ha.blank hb.blank hf.trimmed]
  simp [hf.ne_nil]

end

theorem LaidOut.fieldLines_eq {F : List Text} {s : Text} (h : LaidOut F s)
    (hF : ∀ f ∈ F, IsField f) : fieldLines s = F := by
  induction h with
  | @lastBlank a ha =>
    rw [← List.append_nil a]
    exact fieldLines_margin ha isMargin_nil
  | lastField ha hb => exact fieldLines_field ha hb (hF _ List.mem_cons_self)
  | blank ha he _ ih =>
    obtain ⟨b, hb, heq⟩ := fieldLines_lineEnd ha.oneLine he _
    rw [heq, fieldLines_margin ha hb, List.nil_append, ih hF]
  | @field f F a b e s ha hb he _ ih =>
    have hf := hF f List.mem_cons_self
    have hline : '\n' ∉ a ++ f ++ b := by simp [ha.oneLine, hf.oneLine, hb.oneLine]
    obtain ⟨b', hb', heq⟩ := fieldLines_lineEnd hline he s
    rw [heq, List.append_assoc _ b, fieldLines_field ha (hb.append hb') hf,
      ih fun g hg => hF g (List.mem_cons_of_mem f hg)]
    rfl

theorem exists_margins {l : Text} (hl : '\n' ∉ l) :
    ∃ a b, IsMargin a ∧ IsMargin b ∧ l = a ++ trim l ++ b := by
  have hmargin {s : Text} (hblank : ∀ c ∈ s, isBlank c) (hsub : s ⊆ l) : IsMargin s :=
    fun c hc => ⟨hblank c hc, ne_of_mem_of_not_mem (hsub hc) hl⟩
  have hright := List.rtakeWhile_suffix isBlank (l.dropWhile isBlank)
  refine ⟨l.takeWhile isBlank, (l.dropWhile isBlank).rtakeWhile isBlank, ?_, ?_, ?_⟩
  · exact hmargin (fun _ => List.mem_takeWhile_imp) (List.takeWhile_prefix isBlank).subset
  · exact hmargin (fun _ => List.mem_rtakeWhile_imp)
      (List.Subset.trans hright.subset (List.dropWhile_suffix isBlank).subset)
  · rw [trim_eq_rdropWhile, List.append_assoc, List.rdropWhile_append_rtakeWhile,
      List.takeWhile_append_dropWhile]

/-- What one line holds. -/
theorem fieldLines_cases {l : Text} (hl : '\n' ∉ l) :
    (IsMargin l ∧ fieldLines l = []) ∨
      ∃ a f b, IsMargin a ∧ IsMargin b ∧ l = a ++ f ++ b ∧ fieldLines l = [f] := by
  obtain ⟨a, b, ha, hb, hsplit⟩ := exists_margins hl
  rw [fieldLines_of_oneLine hl]
  by_cases hempty : trim l = []
  · rw [hempty, List.append_nil] at hsplit
    refine .inl ⟨hsplit ▸ ha.append hb, ?_⟩
    rw [hempty]
    rfl
  · exact .inr ⟨a, trim l, b, ha, hb, hsplit, by simp [hempty]⟩

/-- Every text lays out the fields that are read from it. -/
theorem laidOut_fieldLines (s : Text) : LaidOut (fieldLines s) s := by
  have hlines : ∀ l ∈ pieces '\n' s, '\n' ∉ l := fun l hl => not_mem_of_mem_pieces hl
  rw [← intercalate_pieces '\n' s, fieldLines_intercalate hlines]
  generalize pieces '\n' s = ls at hlines
  induction ls with
  | nil => exact .lastBlank isMargin_nil
  | cons l ls ih =>
    have hls := ih fun k hk => hlines k (List.mem_cons_of_mem l hk)
    have hl := fieldLines_cases (hlines l List.mem_cons_self)
    rw [List.flatMap_cons]
    -- Only the last line is without a line end.
    cases ls with
    | nil =>
      rw [List.intercalate_singleton]
      rcases hl with ⟨ha, hfields⟩ | ⟨a, f, b, ha, hb, rfl, hfields⟩
      · rw [hfields]
        exact .lastBlank ha
      · rw [hfields]
        exact .lastField ha hb
    | cons k ks =>
      rw [List.intercalate_cons_cons]
      rcases hl with ⟨ha, hfields⟩ | ⟨a, f, b, ha, hb, rfl, hfields⟩
      · rw [hfields]
        exact .blank ha (.inl rfl) hls
      · rw [hfields]
        exact .field ha hb (.inl rfl) hls

theorem fieldLines_intercalate_fields {F : List Text} (hF : ∀ f ∈ F, IsField f) :
    fieldLines (['\n'].intercalate F) = F := by
  have hone : ∀ f ∈ F, fieldLines f = [f] := by
    intro f hf
    simpa using fieldLines_field isMargin_nil isMargin_nil (hF f hf)
  rw [fieldLines_intercalate fun f hf => (hF f hf).oneLine, List.flatMap_congr hone,
    List.flatMap_singleton']

/-- What the bytes have to be for these fields to be read. -/
theorem readFields_iff_laidOut {bytes : List UInt8} {F : List Text} :
    readFields bytes = some F ↔
      (∀ f ∈ F, IsField f) ∧ ∃ s, bytes = Utf8.encode s ∧ LaidOut F s := by
  rw [readFields_eq_some_iff]
  constructor
  · rintro ⟨s, hs, rfl⟩
    exact ⟨fun f => isField_of_mem_fieldLines, s, hs, laidOut_fieldLines s⟩
  · rintro ⟨hF, s, hs, hlaid⟩
    exact ⟨s, hs, (hlaid.fieldLines_eq hF).symm⟩

theorem Options.run_readFields {stdin : List UInt8} {F : List Text} (hread : readFields stdin = some F)
    (hne : F ≠ []) (lib : Libraries) (uri : Text) (flags : List Flag) (stdin' : List UInt8)
    (exchange : Exchange) :
    (⟨uri, [], flags⟩ : Options).run lib stdin exchange =
      (⟨uri, F, flags⟩ : Options).run lib stdin' exchange := by
  have hfields : (⟨uri, [], flags⟩ : Options).fieldsOr stdin =
      (⟨uri, F, flags⟩ : Options).fieldsOr stdin' := by
    simp [fieldsOr, hread, hne]
  have hdocument : (⟨uri, [], flags⟩ : Options).document stdin =
      (⟨uri, F, flags⟩ : Options).document stdin' := by
    rw [document, hfields]
    rfl
  rw [run, hdocument]
  rfl

/-- Fields on the standard input are fields in the arguments, however they are laid out there:
with margins, blank lines, either line end, and with or without the last one. Nothing else is
ever read, and what is read can be written back one field per line. -/
theorem Options.stdin_agrees_with_arguments :
    (∀ F s, F ≠ [] → (∀ f ∈ F, IsField f) → LaidOut F s →
      readFields (Utf8.encode s) = some F ∧
      ∀ lib uri flags stdin exchange,
        (⟨uri, [], flags⟩ : Options).run lib (Utf8.encode s) exchange =
          (⟨uri, F, flags⟩ : Options).run lib stdin exchange) ∧
    ∀ bytes F, readFields bytes = some F →
      (∀ f ∈ F, IsField f) ∧ (∃ s, bytes = Utf8.encode s ∧ LaidOut F s) ∧
      readFields (Utf8.encode (['\n'].intercalate F)) = some F := by
  constructor
  · intro F s hne hF hs
    have hread := readFields_iff_laidOut.2 ⟨hF, s, rfl, hs⟩
    exact ⟨hread, run_readFields hread hne⟩
  · intro bytes F hread
    obtain ⟨hF, hs⟩ := readFields_iff_laidOut.1 hread
    refine ⟨hF, hs, readFields_eq_some_iff.2 ⟨_, rfl, ?_⟩⟩
    exact (fieldLines_intercalate_fields hF).symm

/-- Two fields with white space inside. -/
def spacedFields : List Text := ["a(k:x\u0085\ry)".toList, "b\u2028c.d".toList]

def spacedLines : Text := "\r\n\u3000a(k:x\u0085\ry) \t\r\n \u00A0\n\n\u000Bb\u2028c.d\r".toList

theorem Options.stdin_agrees_with_arguments_spaced :
    spacedFields ≠ [] ∧ (∀ f ∈ spacedFields, IsField f) ∧ LaidOut spacedFields spacedLines ∧
      readFields (Utf8.encode spacedLines) = some spacedFields ∧
      (⟨"http://h".toList, [], [.verbose]⟩ : Options).run .offline (Utf8.encode spacedLines)
          (.unreachable []) =
        ⟨1, line "query\x7ba(k:\"x\u0085\ry\"),b\u2028c\x7bd\x7d\x7d".toList,
          some (line "Request error: request failed: no connections are opened".toList), none⟩ ∧
      readFields (Utf8.encode (['\n'].intercalate spacedFields)) = some spacedFields := by
  have hne : spacedFields ≠ [] := List.cons_ne_nil _ _
  have hfields : fieldLines spacedLines = spacedFields := by decide +kernel
  have hF : ∀ f ∈ spacedFields, IsField f := fun f hf => isField_of_mem_fieldLines (hfields ▸ hf)
  have hs : LaidOut spacedFields spacedLines := hfields ▸ laidOut_fieldLines spacedLines
  obtain ⟨hread, hrun⟩ := stdin_agrees_with_arguments.1 _ _ hne hF hs
  refine ⟨hne, hF, hs, hread, ?_, (stdin_agrees_with_arguments.2 _ _ hread).2.2⟩
  rw [hrun _ _ _ []]
  decide +kernel

end QueryShorthand
