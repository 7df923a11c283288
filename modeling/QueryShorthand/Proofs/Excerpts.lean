import QueryShorthand.Proofs.Calls

/-! What calls in a row return stands in the string. Each chunk is written where its position
says, no two chunks overlap, and only what a fault has dropped is missing between them. -/

namespace QueryShorthand
set_option autoImplicit false

/-- The position behind a chunk. -/
def Chunk.stop (c : Chunk) : Nat := c.position + c.written.length

theorem Chunk.Legal.position_lt_stop {c : Chunk} (h : c.Legal) : c.position < c.stop :=
  Nat.lt_add_of_pos_right (List.length_pos_iff.2 h.written_ne_nil)

theorem Laid.bounds {start : Nat} {cs : List Chunk} (h : Laid start cs) :
    ∀ c ∈ cs, start ≤ c.position ∧ c.stop ≤ start + (Batch.written cs).length := by
  intro c hc
  obtain ⟨before, behind, rfl⟩ := List.append_of_mem hc
  have hposition := laid_iff.1 h before c behind rfl
  rw [Chunk.stop, hposition, Batch.written_append, Batch.written_cons, List.length_append,
    List.length_append]
  omega

theorem Laid.pairwise {start : Nat} {cs : List Chunk} (h : Laid start cs) :
    cs.Pairwise fun c d => c.stop ≤ d.position := by
  induction cs generalizing start with
  | nil => exact .nil
  | cons c cs ih =>
    obtain ⟨hposition, hrest⟩ := h
    refine .cons (fun d hd => ?_) (ih hrest)
    rw [Chunk.stop, hposition]
    exact (hrest.bounds d hd).1

/-- A batch stands in a string: its chunks are written there one directly behind the other, each
at its position, up to the end of the string or a `.`. -/
structure Batch.Excerpt (spec : Text) (b : Batch) : Prop where
  opened : ∃ kind, b.OpenedBy kind
  legal : ∀ c ∈ b, c.Legal
  verbatim : ∀ c ∈ b, c.written <+: spec.drop c.position
  placed : ∃ before rest, spec = before ++ (b.written ++ rest) ∧ Laid before.length b ∧
    (rest = [] ∨ rest.head? = some '.')

theorem written_prefix_drop {spec before rest : Text} {cs : List Chunk}
    (hspec : spec = before ++ (Batch.written cs ++ rest)) (h : Laid before.length cs) :
    ∀ c ∈ cs, c.written <+: spec.drop c.position := by
  intro c hc
  obtain ⟨first, behind, rfl⟩ := List.append_of_mem hc
  have hposition := laid_iff.1 h first c behind rfl
  have hsplit : spec = (before ++ Batch.written first) ++
      (c.written ++ (Batch.written behind ++ rest)) := by
    simp [hspec]
  rw [hposition, ← List.length_append, hsplit, List.drop_left]
  exact List.prefix_append _ _

namespace Scanner

/-- The batches that so many calls in a row give. -/
def returned (s : Scanner) (calls : Nat) : List Batch :=
  (s.steps calls).filterMap (·.toOption.join)

theorem returned_succ (s : Scanner) (n : Nat) :
    s.returned (n + 1) = s.returned n ++ (s.answer n).toOption.join.toList := by
  rw [returned, returned, steps_eq, steps_eq, List.range_succ, List.map_append,
    List.filterMap_append]
  cases h : (s.answer n).toOption.join <;> simp [h]

theorem returned_succ_of_batch {s : Scanner} {n : Nat} {b : Batch}
    (h : s.answer n = .ok (some b)) : s.returned (n + 1) = s.returned n ++ [b] := by
  rw [returned_succ, h]
  rfl

theorem returned_succ_of_none {s : Scanner} {n : Nat} (h : ∀ b, s.answer n ≠ .ok (some b)) :
    s.returned (n + 1) = s.returned n := by
  rw [returned_succ]
  rcases ha : s.answer n with fault | _ | b
  · exact List.append_nil _
  · exact List.append_nil _
  · exact absurd ha (h b)

theorem mem_returned_iff {s : Scanner} {n : Nat} {b : Batch} :
    b ∈ s.returned n ↔ ∃ k, k < n ∧ s.answer k = .ok (some b) := by
  induction n with
  | zero => simp [returned, steps]
  | succ n ih =>
    have hlast : b ∈ (s.answer n).toOption.join.toList ↔ s.answer n = .ok (some b) := by
      rcases s.answer n with fault | _ | b' <;> simp [Except.toOption, eq_comm]
    rw [returned_succ, List.mem_append, ih, hlast]
    simp only [Nat.lt_succ_iff_lt_or_eq, or_and_right, exists_or, exists_eq_left]

theorem readsBatch_of_answer {s : Scanner} {k : Nat} {b : Batch} (h : s.answer k = .ok (some b)) :
    (s.behind k).ReadsBatch b (s.behind (k + 1)) := by
  have hc := call_behind s k
  rw [h] at hc
  cases hc with
  | read _ hb => exact hb

theorem behind_of_exhausted {s : Scanner} {k : Nat} (h : s.answer k = .ok none) :
    s.behind (k + 1) = s.behind k := by
  have hc := call_behind s k
  rw [h] at hc
  generalize s.behind (k + 1) = t at hc
  cases hc with
  | exhausted => rfl

theorem Opens.openedBy {s : Scanner} {b : Batch} (h : s.Opens b) : ∃ kind, b.OpenedBy kind := by
  obtain ⟨c, cs, hb, -, hcs⟩ := h
  exact ⟨c.kind, c, cs, hb, rfl, hcs⟩

theorem Opens.started {s : Scanner} {b : Batch} (h : s.Opens b) {c : Chunk} (hc : c ∈ b)
    (hkind : c.kind = .start) : s.started = false := by
  obtain ⟨d, ds, rfl, hstart, hds⟩ := h
  rcases List.mem_cons.1 hc with rfl | hc
  · exact hstart.1 hkind
  · rcases hds c hc with hc | hc <;> simp [hkind] at hc

theorem Within.excerpt {spec : Text} {s t : Scanner} {b : Batch} (h : s.Within spec)
    (hb : s.ReadsBatch b t) : b.Excerpt spec := by
  obtain ⟨before, hbefore, hposition⟩ := h.placed
  have hspec : spec = before ++ (b.written ++ t.rest) := by rw [← hb.rest, hbefore]
  have hlaid : Laid before.length b := hposition ▸ hb.laid
  exact ⟨hb.opens.openedBy, hb.legal, written_prefix_drop hspec hlaid,
    before, t.rest, hspec, hlaid, hb.ended⟩

section
variable (spec : Text)

theorem excerpt_of_mem_returned {n : Nat} {b : Batch} (h : b ∈ (ofText spec).returned n) :
    b.Excerpt spec := by
  obtain ⟨k, -, hk⟩ := mem_returned_iff.1 h
  exact (within_behind spec k).excerpt (readsBatch_of_answer hk)

theorem legal_of_mem_returned {n : Nat} {c : Chunk} (h : c ∈ ((ofText spec).returned n).flatten) :
    c.Legal := by
  obtain ⟨b, hb, hc⟩ := List.mem_flatten.1 h
  exact (excerpt_of_mem_returned spec hb).legal c hc

/-- By induction on the calls, with the position that the scanner has reached above all chunks. -/
theorem spread_returned (n : Nat) :
    ((ofText spec).returned n).flatten.Pairwise (fun c d => c.stop ≤ d.position) ∧
      ∀ c ∈ ((ofText spec).returned n).flatten, c.stop ≤ ((ofText spec).behind n).position := by
  induction n with
  | zero => exact ⟨.nil, by simp [returned, steps]⟩
  | succ n ih =>
    obtain ⟨hspread, hreached⟩ := ih
    have hold (c : Chunk) (hc : c ∈ ((ofText spec).returned n).flatten) :
        c.stop ≤ ((ofText spec).behind (n + 1)).position :=
      Nat.le_trans (hreached c hc) (call_behind (ofText spec) n).position_le
    by_cases hbatch : ∃ b, (ofText spec).answer n = .ok (some b)
    · obtain ⟨b, h⟩ := hbatch
      have hb := readsBatch_of_answer h
      have hstop : ((ofText spec).behind (n + 1)).position =
          ((ofText spec).behind n).position + b.written.length := by rw [hb.next]
      rw [returned_succ_of_batch h, List.flatten_append, List.flatten_singleton]
      refine ⟨List.pairwise_append.2 ⟨hspread, hb.laid.pairwise, fun c hc d hd => ?_⟩,
        List.forall_mem_append.2 ⟨hold, fun c hc => ?_⟩⟩
      · exact Nat.le_trans (hreached c hc) (hb.laid.bounds d hd).1
      · exact hstop ▸ (hb.laid.bounds c hc).2
    · rw [returned_succ_of_none fun b h => hbatch ⟨b, h⟩]
      exact ⟨hspread, hold⟩

theorem first_of_start {n : Nat} {b : Batch} (h : b ∈ (ofText spec).returned n) {c : Chunk}
    (hc : c ∈ b) (hkind : c.kind = .start) :
    (ofText spec).answer 0 = .ok (some b) ∧ b.head? = some c ∧ c.position = 0 := by
  obtain ⟨k, -, hk⟩ := mem_returned_iff.1 h
  have hb := readsBatch_of_answer hk
  have hstarted := hb.opens.started hc hkind
  cases k with
  | succ k =>
    rw [started_behind spec k] at hstarted
    cases hstarted
  | zero =>
    obtain ⟨d, ds, rfl, -, hds⟩ := hb.opens
    have hcd : c = d := by
      refine (List.mem_cons.1 hc).resolve_right fun hmem => ?_
      rcases hds c hmem with hc | hc <;> simp [hkind] at hc
    subst hcd
    exact ⟨hk, rfl, hb.laid.1⟩

theorem tiled_of_no_fault {n : Nat}
    (h : ∀ k, k < n → ∀ fault, (ofText spec).answer k ≠ .error fault) :
    Laid 0 ((ofText spec).returned n).flatten ∧
      Batch.written ((ofText spec).returned n).flatten ++ ((ofText spec).behind n).rest = spec ∧
      (Batch.written ((ofText spec).returned n).flatten).length =
        ((ofText spec).behind n).position := by
  induction n with
  | zero => exact ⟨trivial, rfl, rfl⟩
  | succ n ih =>
    obtain ⟨hlaid, hspec, hlength⟩ := ih fun k hk => h k (Nat.lt_succ_of_lt hk)
    rcases ha : (ofText spec).answer n with fault | _ | b
    · exact absurd ha (h n (Nat.lt_succ_self n) fault)
    · rw [returned_succ_of_none (by simp [ha]), behind_of_exhausted ha]
      exact ⟨hlaid, hspec, hlength⟩
    · have hb := readsBatch_of_answer ha
      rw [returned_succ_of_batch ha, List.flatten_append, List.flatten_singleton,
        Batch.written_append]
      refine ⟨laid_append.2 ⟨hlaid, ?_⟩, ?_, ?_⟩
      · rw [Nat.zero_add, hlength]
        exact hb.laid
      · rw [List.append_assoc, ← hb.rest, hspec]
      · rw [List.length_append, hlength, hb.next]

end

/-- What calls in a row return stands in the string, also behind faults: every batch does, and
no two chunks overlap or change places. A name without connector is only ever the first chunk of
what the first call returns. As long as no call fails, nothing is left out. -/
theorem returned_excerpts (spec : Text) (n : Nat) :
    (∀ b ∈ (ofText spec).returned n, b.Excerpt spec) ∧
    ((ofText spec).returned n).flatten.Pairwise (fun c d => c.stop ≤ d.position) ∧
    (∀ c ∈ ((ofText spec).returned n).flatten, c.position < c.stop ∧
      c.stop ≤ ((ofText spec).behind n).position) ∧
    (∀ b ∈ (ofText spec).returned n, ∀ c ∈ b, c.kind = .start →
      (ofText spec).answer 0 = .ok (some b) ∧ b.head? = some c ∧ c.position = 0) ∧
    ((ofText spec).returned n).flatten.Pairwise (fun _ d => d.kind ≠ .start) ∧
    ((∀ k, k < n → ∀ fault, (ofText spec).answer k ≠ .error fault) →
      Laid 0 ((ofText spec).returned n).flatten ∧
        Batch.written ((ofText spec).returned n).flatten =
          spec.take ((ofText spec).behind n).position ∧
        (Batch.written ((ofText spec).returned n).flatten).length =
          ((ofText spec).behind n).position) := by
  obtain ⟨hspread, hreached⟩ := spread_returned spec n
  refine ⟨fun b => excerpt_of_mem_returned spec, hspread, fun c hc => ?_,
    fun b hb c => first_of_start spec hb, ?_, fun h => ?_⟩
  · exact ⟨(legal_of_mem_returned spec hc).position_lt_stop, hreached c hc⟩
  · refine hspread.imp_of_mem fun {c d} hc hd hcd hkind => ?_
    obtain ⟨b, hb, hdb⟩ := List.mem_flatten.1 hd
    have hlt := (legal_of_mem_returned spec hc).position_lt_stop
    have hzero := (first_of_start spec hb hdb hkind).2.2
    omega
  · obtain ⟨hlaid, hspec, hlength⟩ := tiled_of_no_fault spec h
    exact ⟨hlaid, hlength ▸ List.prefix_iff_eq_take.1 ⟨_, hspec⟩, hlength⟩

/-- The connector in front of a label is lost with the fault, and the label opens a batch. -/
example : (ofText "a.(b).c,d".toList).returned 4 =
    [[⟨.start, "a".toList, 0⟩], [⟨.label, "b".toList, 2⟩],
      [⟨.descend, "c".toList, 5⟩, ⟨.sibling, "d".toList, 7⟩]] := by
  decide +kernel

end Scanner

end QueryShorthand
