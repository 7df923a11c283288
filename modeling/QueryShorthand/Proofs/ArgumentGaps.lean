import QueryShorthand.Proofs.Printing
import QueryShorthand.Query

/-! Where the separator of arguments stands in a document. Each part of a document that depends
on the separator is a list of fixed pieces with the separator between them, and each place between
two pieces is a seam between two filters of one node. Parts are put behind one another by joining
the last piece of the one with the first piece of the other, so the pieces of a whole document can
be told before the separator is chosen. -/

namespace QueryShorthand
set_option autoImplicit false

theorem nil_intercalate (ss : List Text) : ([] : Text).intercalate ss = ss.flatten := by
  cases ss with
  | nil => rfl
  | cons s ss => simp [intercalate_cons_eq, List.flatMap_id']

/-- A place between two filters. -/
abbrev Seam := (Text × Text) × (Text × Text)

/-- The places between filters that are next to one another. -/
def Filters.seams (filters : Filters) : List Seam := filters.zip filters.tail

/-- Of the pieces on both sides of a seam the one before it ends with the first filter, and the
one behind it begins with the second. -/
inductive Joined : List Seam → List Text → Prop where
  | last {s : Text} : Joined [] [s]
  | seam {e f : Text × Text} {s t : Text} {seams : List Seam} {ts : List Text}
      (he : Filters.entryText e <:+ s) (hf : Filters.entryText f <+: t)
      (ht : Joined seams (t :: ts)) : Joined ((e, f) :: seams) (s :: t :: ts)

namespace Joined
variable {seams seams' : List Seam} {ss ts : List Text}

theorem length (h : Joined seams ss) : ss.length = seams.length + 1 := by
  induction h with
  | last => rfl
  | seam _ _ _ ih => rw [List.length_cons, ih, List.length_cons]

theorem exists_cons (h : Joined seams ss) : ∃ t ts, ss = t :: ts := by
  cases h with
  | last => exact ⟨_, _, rfl⟩
  | seam => exact ⟨_, _, rfl⟩

theorem prepend {t : Text} (h : Joined seams (t :: ts)) (s : Text) :
    Joined seams ((s ++ t) :: ts) := by
  cases h with
  | last => exact .last
  | seam he hf ht => exact .seam (he.trans (List.suffix_append s t)) hf ht

/-- Two lists of pieces put behind one another: what was a first piece may become longer at its
end. -/
theorem append (h : Joined seams ss) (h' : Joined seams' ts) :
    ∃ s ss', Joined (seams ++ seams') (s :: ss') ∧ (∀ r ∈ ss.head?, r <+: s) ∧
      ∀ sep : Text, sep.intercalate (s :: ss') = sep.intercalate ss ++ sep.intercalate ts := by
  induction h with
  | @last s =>
    obtain ⟨t, ts, rfl⟩ := h'.exists_cons
    refine ⟨s ++ t, ts, h'.prepend s, by simp, fun sep => ?_⟩
    rw [List.intercalate_singleton, intercalate_cons_eq, intercalate_cons_eq, List.append_assoc]
  | @seam e f s t seams ss he hf _ ih =>
    obtain ⟨t', ts', hjoined, hfirst, hsep⟩ := ih
    refine ⟨s, t' :: ts', .seam he (hf.trans (hfirst t rfl)) hjoined, by simp, fun sep => ?_⟩
    rw [List.intercalate_cons_cons, hsep, List.intercalate_cons_cons]
    simp only [List.append_assoc]

theorem entries (e : Text × Text) (fs : Filters) :
    Joined (Filters.seams (e :: fs)) ((e :: fs).map Filters.entryText) := by
  induction fs generalizing e with
  | nil => exact .last
  | cons f fs ih => exact .seam List.suffix_rfl List.prefix_rfl (ih f)

end Joined

/-- The separator is written at the seams, and the pieces between these are the same for every
separator. -/
def SeparatedAt (seams : List Seam) (text : Text → Text) : Prop :=
  ∃ pieces, Joined seams pieces ∧ ∀ sep : Text, text sep = sep.intercalate pieces

namespace SeparatedAt

theorem const (s : Text) : SeparatedAt [] fun _ => s :=
  ⟨[s], .last, fun _ => List.intercalate_singleton.symm⟩

theorem append {seams seams' : List Seam} {f g : Text → Text} (hf : SeparatedAt seams f)
    (hg : SeparatedAt seams' g) : SeparatedAt (seams ++ seams') fun sep => f sep ++ g sep := by
  obtain ⟨ss, hss, hf⟩ := hf
  obtain ⟨ts, hts, hg⟩ := hg
  obtain ⟨s, ss', hjoined, -, hsep⟩ := hss.append hts
  exact ⟨s :: ss', hjoined, fun sep => by simp only [hf, hg, hsep]⟩

theorem cons {seams : List Seam} {f : Text → Text} (h : SeparatedAt seams f) (c : Char) :
    SeparatedAt seams fun sep => c :: f sep :=
  (const [c]).append h

theorem snoc {seams : List Seam} {f : Text → Text} (h : SeparatedAt seams f) (c : Char) :
    SeparatedAt seams fun sep => f sep ++ [c] := by
  have happend := h.append (const [c])
  rwa [List.append_nil] at happend

theorem flatMap {α : Type} {f : α → Text → Text} {k : α → List Seam} {as : List α}
    (h : ∀ a ∈ as, SeparatedAt (k a) (f a)) :
    SeparatedAt (as.flatMap k) fun sep => as.flatMap (f · sep) := by
  induction as with
  | nil => exact .const []
  | cons a as ih =>
    obtain ⟨ha, has⟩ := List.forall_mem_cons.1 h
    exact ha.append (ih has)

theorem braced {α : Type} {f : α → Text → Text} {k : α → List Seam} {as : List α}
    (h : ∀ a ∈ as, SeparatedAt (k a) (f a)) :
    SeparatedAt (as.flatMap k) fun sep => QueryShorthand.braced (as.map (f · sep)) := by
  cases as with
  | nil => exact .const []
  | cons a as =>
    obtain ⟨ha, has⟩ := List.forall_mem_cons.1 h
    have hbehind := flatMap fun b hb => (has b hb).cons ','
    have hblock := (ha.append (hbehind.snoc '}')).cons '{'
    simpa only [QueryShorthand.braced, List.map_cons, List.flatMap_cons, List.flatMap_map]
      using hblock

theorem arguments (filters : Filters) :
    SeparatedAt filters.seams fun sep => Selection.arguments sep filters := by
  simp only [Filters.arguments_eq_block]
  cases filters with
  | nil => exact .const []
  | cons e fs =>
    have hentries : SeparatedAt (Filters.seams (e :: fs)) fun sep =>
        sep.intercalate ((e :: fs).map Filters.entryText) := ⟨_, .entries e fs, fun _ => rfl⟩
    exact (hentries.snoc ')').cons '('

theorem eq_of_nil {text : Text → Text} (h : SeparatedAt [] text) (sep sep' : Text) :
    text sep = text sep' := by
  obtain ⟨_, hjoined, heq⟩ := h
  cases hjoined with
  | last => rw [heq, heq, List.intercalate_singleton, List.intercalate_singleton]

end SeparatedAt

namespace Tree

/-- How often a separator is written at a node. -/
def separatorCount (t : Tree) (i : Nat) : Nat := (t.filters i).length - 1

/-- The places where the separator is written for these nodes, in their order. -/
def seams (t : Tree) (nodes : List Nat) : List Seam := nodes.flatMap fun i => (t.filters i).seams

theorem length_seams (t : Tree) (nodes : List Nat) :
    (t.seams nodes).length = (nodes.map t.separatorCount).sum := by
  have hnode (i : Nat) : (t.filters i).seams.length = t.separatorCount i := by
    rw [Filters.seams, List.length_zip, List.length_tail, separatorCount]
    omega
  rw [seams, List.length_flatMap]
  exact congrArg List.sum (List.map_congr_left fun i _ => hnode i)

theorem WellFormed.separatedAt_printFrom {t : Tree} (h : t.WellFormed) {id : Nat} (hid : id < t.size) :
    SeparatedAt (t.seams (t.printOrder id)) (t.printFrom id) := by
  refine h.of_children (P := fun id => SeparatedAt (t.seams (t.printOrder id)) (t.printFrom id))
    (fun id n hn ih => ?_) hid
  have hown : t.filters id = n.filters := by
    rw [Tree.filters, hn]
    rfl
  have hparts := (SeparatedAt.const (Selection.heading n.isRoot n.aliasName n.name)).append
    ((SeparatedAt.arguments n.filters).append (.braced ih))
  rw [List.nil_append, ← hown, ← children_of_node? hn] at hparts
  rw [h.printOrder_eq, seams, List.flatMap_cons, List.flatMap_assoc]
  rw [funext (h.printFrom_eq hn), ← children_of_node? hn, ← hown]
  exact hparts

end Tree

theorem buildQuery_cases (fields : List Text) :
    (∃ e, ∀ commaArgs, buildQuery fields commaArgs = .error e) ∨
      ∃ t, parseFields fields = .ok t ∧
        ∀ commaArgs, buildQuery fields commaArgs = .ok (t.print (argumentSeparator commaArgs)) := by
  by_cases hnil : fields = []
  · exact .inl ⟨.noFields, fun commaArgs => if_pos hnil⟩
  · cases hparse : parseFields fields with
    | error e => exact .inl ⟨.parse e, fun commaArgs => by rw [buildQuery, if_neg hnil, hparse]⟩
    | ok t => exact .inr ⟨t, rfl, fun commaArgs => by rw [buildQuery, if_neg hnil, hparse]⟩

/-- The separator is written between every two filters of a node that are next to one another, and
nowhere else: the pieces between these places are the same for every separator, and those on both
sides of a place end and begin with its filters. A node with `n + 1` filters has `n` places, so
without such nodes the separator does not matter, and with commas a document has one comma more
for each place. -/
theorem separator_between_arguments :
    (∀ t, Tree.Reachable t → ∀ id, id < t.size →
      (∃ (pieces : List Text) (nodes : List Nat), nodes.Nodup ∧ (∀ i, i ∈ nodes ↔ t.Below id i) ∧
        Joined (t.seams nodes) pieces ∧
        pieces.length = (nodes.map t.separatorCount).sum + 1 ∧
        ∀ sep, t.printAt id sep = .ok (sep.intercalate pieces)) ∧
      ((∀ i, t.Below id i → (t.filters i).length ≤ 1) →
        ∀ sep sep', t.printAt id sep = t.printAt id sep')) ∧
    ∀ fields, (∃ e, ∀ commaArgs, buildQuery fields commaArgs = .error e) ∨
      ∃ (t : Tree) (pieces : List Text) (nodes : List Nat), parseFields fields = .ok t ∧
        nodes.Perm (List.range t.size) ∧ Joined (t.seams nodes) pieces ∧
        pieces.length = ((List.range t.size).map t.separatorCount).sum + 1 ∧
        buildQuery fields false = .ok pieces.flatten ∧
        buildQuery fields true = .ok ([','].intercalate pieces) := by
  refine ⟨fun t h id hid => ⟨?_, fun hsingle sep sep' => ?_⟩, fun fields => ?_⟩
  · have hw := h.wellFormed
    obtain ⟨pieces, hjoined, hprint⟩ := hw.separatedAt_printFrom hid
    refine ⟨pieces, t.printOrder id, hw.nodup_printOrder hid, fun i => hw.mem_printOrder_iff hid,
      hjoined, ?_, fun sep => ?_⟩
    · rw [hjoined.length, t.length_seams]
    · rw [Tree.printAt_of_lt hid, hprint]
  · have hw := h.wellFormed
    have hnone : t.seams (t.printOrder id) = [] := by
      rw [← List.length_eq_zero_iff, t.length_seams, List.sum_eq_zero_iff_forall_eq_nat]
      intro k hk
      obtain ⟨i, hi, rfl⟩ := List.mem_map.1 hk
      exact Nat.sub_eq_zero_of_le (hsingle i ((hw.mem_printOrder_iff hid).1 hi))
    have hseparated := hw.separatedAt_printFrom hid
    rw [hnone] at hseparated
    rw [Tree.printAt_of_lt hid, Tree.printAt_of_lt hid, hseparated.eq_of_nil sep sep']
  · rcases buildQuery_cases fields with herror | ⟨t, hparse, hbuild⟩
    · exact .inl herror
    · have h := Tree.reachable_of_parseFields hparse
      have hperm := h.wellFormed.printOrder_root_perm h.root_lt
      obtain ⟨pieces, hjoined, hprint⟩ := h.wellFormed.separatedAt_printFrom h.root_lt
      refine .inr ⟨t, pieces, t.printOrder Tree.root, hparse, hperm, hjoined, ?_, ?_, ?_⟩
      · rw [hjoined.length, t.length_seams, (hperm.map _).sum_nat]
      · rw [hbuild, ← nil_intercalate]
        exact congrArg Except.ok (hprint [])
      · rw [hbuild]
        exact congrArg Except.ok (hprint [','])

/-- Two fields have more than one filter, one of them below the other. -/
def filtered : Tree := Tree.empty.after (.parseField "a(k:1)(l:2).b(m:3)(n:4)(o:,),c(p:6)".toList)

theorem separator_between_arguments_filtered :
    Tree.Reachable filtered ∧ filtered.size = 4 ∧
      (∃ (pieces : List Text) (nodes : List Nat), (∀ i, i ∈ nodes ↔ filtered.Below 2 i) ∧
        Joined (filtered.seams nodes) pieces ∧
        filtered.printAt 2 [] = .ok pieces.flatten ∧
        filtered.printAt 2 ['"', ','] = .ok (['"', ','].intercalate pieces)) ∧
      (∀ i, filtered.Below 3 i → (filtered.filters i).length ≤ 1) ∧
      filtered.printAt 3 [] = filtered.printAt 3 [','] := by
  have h : Tree.Reachable filtered := .after .empty _ trivial
  have hsize : filtered.size = 4 := by decide +kernel
  have hsingle : ∀ i, filtered.Below 3 i → (filtered.filters i).length ≤ 1 := by
    intro i hi
    rcases Nat.eq_or_lt_of_le (h.wellFormed.le_of_below hi) with rfl | hlt
    · decide +kernel
    · rw [Tree.filters_eq_nil (by omega)]
      exact Nat.zero_le 1
  have hall := separator_between_arguments.1 filtered h
  obtain ⟨pieces, nodes, -, hnodes, hjoined, -, hprint⟩ := (hall 2 (by omega)).1
  refine ⟨h, hsize, ⟨pieces, nodes, hnodes, hjoined, ?_, hprint _⟩, hsingle,
    (hall 3 (by omega)).2 hsingle _ _⟩
  rw [hprint, nil_intercalate]

end QueryShorthand
