import QueryShorthand.Proofs.Labels
import QueryShorthand.Proofs.Order
import QueryShorthand.Proofs.Repeats

/-! The filters of a node over a whole run of calls. Calls by index and shorthand strings all do
what moments say, so a node carries what was written to it, be it by its index or at its path,
and nothing that was written elsewhere. -/

namespace QueryShorthand
set_option autoImplicit false

/-- What a call does to the tree it finds, said in paths. -/
def Operation.moments (t : Tree) : Operation → List Moment
  | .resolve id path => [⟨t.path id ++ pieces '.' path, none, none⟩]
  | .setFilter id key value => [⟨t.path id, none, some (key, value)⟩]
  | .setAlias id name => [⟨t.path id, some name, none⟩]
  | .parseField spec => QueryShorthand.moments (Tree.accepted [spec])
  | .parseFields specs => QueryShorthand.moments (Tree.accepted specs)

/-- The filters that a call writes to the node with the given index and path, in order. Strings
that cannot be read, and those behind them, write nothing. -/
def Operation.writesTo (i : Nat) (p : Path) : Operation → List (Text × Text)
  | .setFilter id key value => if id = i then [(key, value)] else []
  | .parseField spec => filtersAt (QueryShorthand.moments (Tree.accepted [spec])) p
  | .parseFields specs => filtersAt (QueryShorthand.moments (Tree.accepted specs)) p
  | .resolve _ _ | .setAlias _ _ => []

def writesTo (i : Nat) (p : Path) (ops : List Operation) : List (Text × Text) :=
  ops.flatMap (·.writesTo i p)

namespace Tree

/-- The calls that have led from the empty tree to `t`, each valid where it was made. -/
inductive History : List Operation → Tree → Prop where
  | start : History [] .empty
  | call {ops : List Operation} {t : Tree} (h : History ops t) (op : Operation) (hop : op.Valid t) :
      History (ops ++ [op]) (t.after op)

theorem History.reachable {ops : List Operation} {t : Tree} (h : History ops t) : Reachable t := by
  induction h with
  | start => exact .empty
  | call _ op hop ih => exact .after ih op hop

section
variable {t : Tree} {op : Operation}

theorem WellFormed.walks_accepted (h : t.WellFormed) (hsize : 0 < t.size) (specs : List Text) :
    t.Walks (moments (accepted specs)) (t.after (.parseFields specs)) := by
  rw [after_parseFields]
  exact h.walks_applied hsize fun _ => readable_of_mem_accepted

theorem WellFormed.walks_after (h : t.WellFormed) (hsize : 0 < t.size) (hop : op.Valid t) :
    t.Walks (op.moments t) (t.after op) := by
  cases op with
  | resolve id path => exact (Walks.start h).next (h.advances_path hop path)
  | setFilter id key value => exact (Walks.start h).next (h.advances_setFilter hop key value)
  | setAlias id name => exact (Walks.start h).next (h.advances_alias hop name)
  | parseField spec =>
    rw [after_parseField]
    exact h.walks_accepted hsize [spec]
  | parseFields specs => exact h.walks_accepted hsize specs

/-- An index and a path that belong together: those of a node, or such as a node may get that is
added later. -/
structure Matches (t : Tree) (ms : List Moment) (i : Nat) (p : Path) : Prop where
  path : i < t.size → t.path i = p
  unseen : t.size ≤ i → ¬ Seen ms p

theorem Matches.of_node {ms : List Moment} {i : Nat} (hi : i < t.size) :
    t.Matches ms i (t.path i) :=
  ⟨fun _ => rfl, fun hle => absurd hi (Nat.not_lt.2 hle)⟩

theorem Matches.before {u : Tree} {ms ms' : List Moment} {i : Nat} {p : Path} (ht : t.Means ms)
    (h : t.Walks ms' u) (hp : u.Matches (ms ++ ms') i p) : t.Matches ms i p := by
  refine ⟨fun hi => ?_, fun hle => ?_⟩
  · rw [← h.path hi]
    exact hp.path (Nat.lt_of_lt_of_le hi h.size_le)
  · rcases Nat.lt_or_ge i u.size with hi | hge
    · rw [← hp.path hi]
      exact h.unseen ht.found hle hi
    · exact fun hs => hp.unseen hge (seen_append.2 (.inl hs))

theorem WellFormed.path_eq_iff (h : t.WellFormed) {ms : List Moment} {i id : Nat} {p : Path}
    (hp : t.Matches ms i p) (hid : id < t.size) (hseen : t.size ≤ i → Seen ms (t.path id)) :
    t.path id = p ↔ id = i := by
  constructor
  · rintro rfl
    rcases Nat.lt_or_ge i t.size with hi | hge
    · exact h.path_inj hid hi (hp.path hi).symm
    · exact absurd (hseen hge) (hp.unseen hge)
  · rintro rfl
    exact hp.path hid

/-- What a call writes at the path of a node it writes to that node. -/
theorem WellFormed.filtersAt_moments (h : t.WellFormed) {ms : List Moment} {i : Nat} {p : Path}
    (hop : op.Valid t) (hp : (t.after op).Matches (ms ++ op.moments t) i p) :
    filtersAt (op.moments t) p = op.writesTo i p := by
  cases op with
  | resolve id path => simp [Operation.moments, Operation.writesTo, filtersAt_singleton]
  | setAlias id name => simp [Operation.moments, Operation.writesTo, filtersAt_singleton]
  | setFilter id key value =>
    have hm : (⟨t.path id, none, some (key, value)⟩ : Moment) ∈
        ms ++ Operation.moments t (.setFilter id key value) :=
      List.mem_append_right ms List.mem_cons_self
    have hid : id < (t.setFilter id key value).size := by
      rw [size_setFilter]
      exact hop
    have hpath : (t.setFilter id key value).path = t.path := path_setFilter ..
    have hiff := (h.edit (.setFilter hop key value)).path_eq_iff hp hid fun _ =>
      ⟨_, hm, by rw [hpath]⟩
    rw [hpath] at hiff
    simp only [Operation.moments, Operation.writesTo, filtersAt_singleton, hiff, Option.toList_some]
  | parseField spec => rfl
  | parseFields specs => rfl

end

section
variable {ops : List Operation} {t : Tree}

theorem History.means (h : History ops t) :
    ∃ ms, t.Means ms ∧ ∀ i p, t.Matches ms i p → filtersAt ms p = writesTo i p ops := by
  induction h with
  | start => exact ⟨[], means_empty, fun _ _ _ => rfl⟩
  | @call ops t h op hop ih =>
    obtain ⟨ms, hmeans, hwrites⟩ := ih
    have hwalks := hmeans.wellFormed.walks_after h.reachable.root_lt hop
    refine ⟨ms ++ op.moments t, hmeans.walks hwalks, fun i p hp => ?_⟩
    rw [filtersAt_append, hwrites i p (hp.before hmeans hwalks),
      hmeans.wellFormed.filtersAt_moments hop hp]
    simp [writesTo]

theorem History.filters_eq (h : History ops t) {i : Nat} (hi : i < t.size) :
    t.filters i = Filters.ofWrites (writesTo i (t.path i) ops) := by
  obtain ⟨ms, hmeans, hwrites⟩ := h.means
  rw [hmeans.filters i hi, hwrites i (t.path i) (.of_node hi)]

/-- Writes to other nodes, by whichever call, leave the filters of a node alone. -/
theorem History.filters_after (h : History ops t) {i : Nat} (hi : i < t.size) {op : Operation}
    (hop : op.Valid t) (hnone : op.writesTo i (t.path i) = []) :
    (t.after op).filters i = t.filters i := by
  have hwalks := h.reachable.wellFormed.walks_after h.reachable.root_lt hop
  have hi' := Nat.lt_of_lt_of_le hi hwalks.size_le
  rw [(h.call op hop).filters_eq hi', hwalks.path hi, h.filters_eq hi]
  simp [writesTo, hnone]

end

end Tree

theorem Filters.lastWrite_eq_none_iff {ws : List (Text × Text)} {key : Text} :
    lastWrite ws key = none ↔ key ∉ ws.map Prod.fst := by
  simp only [lastWrite, Option.map_eq_none_iff, List.getLast?_eq_none_iff, List.filter_eq_nil_iff,
    decide_eq_true_eq, List.mem_map, not_exists, not_and]

/-- After any run of calls the filters of a node are those that were written to it: each key
once, in the order of the first writes, with the value of its last write. They are looked up and
printed accordingly, and a call that writes nothing to the node leaves them as they are. -/
theorem Tree.History.filters_map {ops : List Operation} {t : Tree} (h : History ops t) {i : Nat}
    (hi : i < t.size) :
    Filters.keys (t.filters i) = ((writesTo i (t.path i) ops).map Prod.fst).eraseDups ∧
      (Filters.keys (t.filters i)).Nodup ∧
      (∀ e ∈ t.filters i,
        ((writesTo i (t.path i) ops).filter fun w => w.1 = e.1).getLast? = some e) ∧
      (∀ key, t.filter i key = Filters.lastWrite (writesTo i (t.path i) ops) key ∧
        (t.filter i key = none ↔ key ∉ (writesTo i (t.path i) ops).map Prod.fst)) ∧
      (∀ sep, t.printFrom i sep =
        Selection.heading (i = root) (t.aliasName i) (t.name i) ++
          (Filters.block sep (t.filters i) ++ braced ((t.children i).map (t.printFrom · sep)))) ∧
      ∀ op, op.Valid t → op.writesTo i (t.path i) = [] →
        (t.after op).filters i = t.filters i := by
  have hw := h.reachable.wellFormed
  have hfilters := h.filters_eq hi
  have hlookup (key : Text) :
      t.filter i key = Filters.lastWrite (writesTo i (t.path i) ops) key := by
    rw [filter_eq_lookup, hfilters, Filters.lookup_ofWrites]
  refine ⟨?_, hw.nodup_filters i, ?_, fun key => ⟨hlookup key, ?_⟩, fun sep => ?_,
    fun op hop => h.filters_after hi hop⟩
  · rw [hfilters]
    exact Filters.keys_ofWrites _
  · rw [hfilters]
    exact fun e => Filters.last_of_mem_ofWrites
  · rw [hlookup, Filters.lastWrite_eq_none_iff]
  · obtain ⟨n, hn⟩ := exists_node? hi
    have hroot : n.isRoot = decide (i = root) :=
      Bool.eq_iff_iff.2 ((hw.isRoot_iff hn).trans decide_eq_true_iff.symm)
    rw [hw.printFrom_eq hn, hroot, Filters.arguments_eq_block, children_of_node? hn,
      name_of_node? hn, aliasName, filters, hn]
    rfl

/-- Calls by index and strings in turn. The label of the third string and the end of the fifth
cannot be read. -/
def interleavedCalls : List Operation :=
  [.parseField "a(k:1)".toList, .resolve 1 "b".toList, .setFilter 1 "l".toList "x".toList,
    .setFilter 2 "k".toList "y".toList, .parseField "a(k:7)(n)".toList,
    .parseFields ["a(m:5)(k:2)".toList, "a(n:6)(".toList, "a(k:9)".toList],
    .setFilter 1 "l".toList []]

def interleavedRun : Tree := interleavedCalls.foldl Tree.after .empty

theorem Tree.History.filters_map_interleaved :
    History interleavedCalls interleavedRun ∧ 1 < interleavedRun.size ∧
      Filters.keys (interleavedRun.filters 1) = ["k".toList, "l".toList, "m".toList] ∧
      interleavedRun.filter 1 "k".toList = some "2".toList ∧
      interleavedRun.filter 1 "l".toList = some [] ∧
      interleavedRun.filter 1 "n".toList = none ∧
      interleavedRun.printFrom 1 [','] =
        "a(k:\"2\",l:\"\",m:\"5\")\x7bb(k:\"y\")\x7d".toList ∧
      (interleavedRun.after (.setFilter 2 "l".toList "z".toList)).filters 1 =
        interleavedRun.filters 1 := by
  have h : History interleavedCalls interleavedRun := by
    refine ((((((History.start.call (.parseField "a(k:1)".toList) trivial).call
      (.resolve 1 "b".toList) ?_).call (.setFilter 1 "l".toList "x".toList) ?_).call
      (.setFilter 2 "k".toList "y".toList) ?_).call (.parseField "a(k:7)(n)".toList) trivial).call
      (.parseFields ["a(m:5)(k:2)".toList, "a(n:6)(".toList, "a(k:9)".toList]) trivial).call
      (.setFilter 1 "l".toList []) ?_
    · change 1 < Tree.size _
      decide +kernel
    · change 1 < Tree.size _
      decide +kernel
    · change 2 < Tree.size _
      decide +kernel
    · change 1 < Tree.size _
      decide +kernel
  have hi : 1 < interleavedRun.size := by decide +kernel
  have hwrites : writesTo 1 (interleavedRun.path 1) interleavedCalls =
      [("k".toList, "1".toList), ("l".toList, "x".toList), ("m".toList, "5".toList),
        ("k".toList, "2".toList), ("l".toList, [])] := by
    decide +kernel
  obtain ⟨hkeys, -, -, hlookup, hprint, hothers⟩ := h.filters_map hi
  rw [hwrites] at hkeys hlookup
  have hother : Operation.Valid interleavedRun (.setFilter 2 "l".toList "z".toList) := by
    change 2 < interleavedRun.size
    decide +kernel
  refine ⟨h, hi, hkeys.trans (by decide), (hlookup _).1.trans (by decide),
    (hlookup _).1.trans (by decide), (hlookup _).2.2 (by decide),
    (hprint [',']).trans (by decide +kernel), hothers _ hother rfl⟩

end QueryShorthand
