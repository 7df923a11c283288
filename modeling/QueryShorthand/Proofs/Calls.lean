import Mathlib.Logic.Function.Iterate
import QueryShorthand.Proofs.Scans

/-! Asking a scanner for its next batch again and again, also behind a fault. Every call but
the first moves the scanner on, until it has read everything or stands where no chunk can
begin; from there on it always gives the same answer. -/

namespace QueryShorthand
set_option autoImplicit false

theorem Chunk.Legal.written_ne_nil {c : Chunk} (h : c.Legal) : c.written ≠ [] := by
  unfold Chunk.written
  split
  · exact h.1
  · simp
  · simp
  · simp

namespace Scanner

/-- The scanner has moved on by `text`, which it had in front of it. -/
structure Passes (s : Scanner) (text : Text) (t : Scanner) : Prop where
  rest : s.rest = text ++ t.rest
  next : t = s.moved text.length t.rest

theorem Passes.refl (s : Scanner) : s.Passes [] s := ⟨rfl, rfl⟩

theorem Passes.trans {s t u : Scanner} {text text' : Text} (h : s.Passes text t)
    (h' : t.Passes text' u) : s.Passes (text ++ text') u := by
  refine ⟨?_, ?_⟩
  · rw [h.rest, h'.rest, List.append_assoc]
  · rw [h'.next, h.next, List.length_append]
    simp [moved, Nat.add_assoc]

theorem passes_head {s : Scanner} {c : Char} {rest : Text} (h : s.rest = c :: rest) :
    s.Passes [c] (s.moved 1 rest) :=
  ⟨h, rfl⟩

theorem passes_name (s : Scanner) (kind : ChunkKind) (start : Nat) :
    ∃ text, s.Passes text (s.name kind start).2 := by
  refine ⟨s.rest.takeWhile isNameChar, ?_, ?_⟩
  · rw [name_rest, List.takeWhile_append_dropWhile]
  · rw [name_rest]
    dsimp only [name]
    split
    · rfl
    · split <;> rfl

theorem passes_label (s : Scanner) (start : Nat) : ∃ text, s.Passes text (s.label start).2 := by
  have hsplit := (List.takeWhile_append_dropWhile (p := (· != ')')) (l := s.rest)).symm
  dsimp only [label]
  split
  · rename_i hdrop
    rw [hdrop] at hsplit
    exact ⟨_, hsplit, rfl⟩
  · rename_i c rest hdrop
    rw [hdrop, List.append_cons] at hsplit
    have hpasses : s.Passes (s.rest.takeWhile (· != ')') ++ [c])
        (s.moved ((s.rest.takeWhile (· != ')')).length + 1) rest) :=
      ⟨hsplit, by rw [List.length_append]; rfl⟩
    refine ⟨s.rest.takeWhile (· != ')') ++ [c], ?_⟩
    split
    · exact hpasses
    · split
      · exact hpasses
      · exact hpasses

/-- A fault moves the scanner on, unless it concerns the opening name or the scanner stands
where no chunk can begin. -/
def FaultMoves (s : Scanner) (fault : Fault) (t : Scanner) : Prop :=
  ∃ text, Passes { s with started := true } text t ∧
    (text = [] → s.started = false ∨ fault = ⟨s.position, .trailingText⟩)

theorem faultMoves_of_nextChunk {s t : Scanner} {fault : Fault}
    (h : s.nextChunk = (.error fault, t)) : s.FaultMoves fault t := by
  have hopened {c : Char} {rest : Text} (hs : s.started = true) (hrest : s.rest = c :: rest)
      (ht : ∃ text, (s.moved 1 rest).Passes text t) : s.FaultMoves fault t := by
    obtain ⟨text, ht⟩ := ht
    have hstarted : { s with started := true } = s := by rw [← hs]
    exact ⟨[c] ++ text, hstarted ▸ (passes_head hrest).trans ht, by simp⟩
  unfold nextChunk at h
  split at h
  · rename_i hs
    split at h
    · rename_i rest hrest
      have ht := passes_name (s.moved 1 rest) .descend s.position
      rw [h] at ht
      exact hopened hs hrest ht
    · rename_i rest hrest
      have ht := passes_name (s.moved 1 rest) .sibling s.position
      rw [h] at ht
      exact hopened hs hrest ht
    · rename_i rest hrest
      have ht := passes_label (s.moved 1 rest) s.position
      rw [h] at ht
      exact hopened hs hrest ht
    · cases h
      have hstarted : { s with started := true } = s := by rw [← hs]
      exact ⟨[], hstarted.symm ▸ .refl s, fun _ => .inr rfl⟩
  · rename_i hs
    obtain ⟨text, ht⟩ := passes_name { s with started := true } .start s.position
    rw [h] at ht
    exact ⟨text, ht, fun _ => .inl (Bool.eq_false_iff.2 hs)⟩

theorem Reads.passes {s t : Scanner} {c : Chunk} (h : s.Reads c t) :
    Passes { s with started := true } c.written t :=
  ⟨h.rest, h.next⟩

/-- By induction on the text in front of the scanner: the chunks before the fault are passed
as well. -/
theorem faultMoves_of_batch {s t : Scanner} {fault : Fault} (h : s.batch = (.error fault, t)) :
    s.FaultMoves fault t := by
  induction hn : s.rest.length using Nat.strongRecOn generalizing s with
  | ind n ih =>
    rcases batch_eq_error_iff_nextChunk.1 h with hc | ⟨c, u, hc, -, -, hu⟩
    · exact faultMoves_of_nextChunk hc
    · have hr := (nextChunk_eq_ok_iff.1 hc).2
      obtain ⟨text, ht, -⟩ := ih u.rest.length (hn ▸ length_rest_nextChunk_lt hc) hu rfl
      have hstarted : { u with started := true } = u := by rw [hr.next]
      rw [hstarted] at ht
      exact ⟨c.written ++ text, hr.passes.trans ht, by simp [hr.legal.written_ne_nil]⟩

/-! One call -/

inductive Call (s : Scanner) : Except Fault (Option Batch) → Scanner → Prop where
  | exhausted (hf : s.finished = true) : Call s (.ok none) s
  | read {b : Batch} {t : Scanner} (hf : s.finished = false) (hb : s.ReadsBatch b t) :
      Call s (.ok (some b)) t
  | failed {fault : Fault} {t : Scanner} (hf : s.finished = false) (ht : s.FaultMoves fault t) :
      Call s (.error fault) t

theorem call_nextBatch (s : Scanner) : s.Call s.nextBatch.1 s.nextBatch.2 := by
  unfold nextBatch
  split
  · rename_i hf
    exact .exhausted hf
  · rename_i hf
    split
    · rename_i fault t hb
      exact .failed (Bool.eq_false_iff.2 hf) (faultMoves_of_batch hb)
    · rename_i b t hb
      exact .read (Bool.eq_false_iff.2 hf) (batch_eq_ok_iff.1 hb)

theorem ReadsBatch.written_ne_nil {s t : Scanner} {b : Batch} (h : s.ReadsBatch b t) :
    b.written ≠ [] := by
  obtain ⟨c, cs, rfl, -⟩ := h.opens
  have hc := (h.legal c List.mem_cons_self).written_ne_nil
  simp [hc]

theorem ReadsBatch.position_lt {s t : Scanner} {b : Batch} (h : s.ReadsBatch b t) :
    s.position < t.position := by
  rw [h.next]
  exact Nat.lt_add_of_pos_right (List.length_pos_iff.2 h.written_ne_nil)

/-- A scanner on its way through a string. It has finished only where no text is left. -/
structure Within (spec : Text) (s : Scanner) : Prop where
  placed : ∃ before, before ++ s.rest = spec ∧ before.length = s.position
  finished : s.finished = true → s.started = true ∧ s.rest = []

theorem within_ofText (spec : Text) : (ofText spec).Within spec :=
  ⟨⟨[], rfl, rfl⟩, fun h => by cases h⟩

section
variable {spec : Text} {s t : Scanner} {answer : Except Fault (Option Batch)}

theorem Within.position_le (h : s.Within spec) : s.position ≤ spec.length := by
  obtain ⟨before, rfl, hposition⟩ := h.placed
  rw [List.length_append]
  omega

theorem Within.position_eq_iff (h : s.Within spec) : s.position = spec.length ↔ s.rest = [] := by
  obtain ⟨before, rfl, hposition⟩ := h.placed
  rw [List.length_append, ← List.length_eq_zero_iff]
  omega

theorem Within.call (h : s.Within spec) (hc : s.Call answer t) : t.Within spec := by
  obtain ⟨before, hbefore, hposition⟩ := h.placed
  cases hc with
  | exhausted hf => exact h
  | @read b t hf hb =>
    refine ⟨⟨before ++ b.written, ?_, ?_⟩, fun ht => ?_⟩
    · rw [List.append_assoc, ← hb.rest, hbefore]
    · rw [hb.next, List.length_append, hposition]
    · rw [hb.next, hf] at ht
      rw [hb.next]
      exact ⟨rfl, by simpa using ht⟩
  | failed hf ht =>
    obtain ⟨text, htext, -⟩ := ht
    have hrest : s.rest = text ++ t.rest := htext.rest
    refine ⟨⟨before ++ text, ?_, ?_⟩, fun ht => ?_⟩
    · rw [List.append_assoc, ← hrest, hbefore]
    · rw [htext.next, List.length_append, hposition]
      rfl
    · rw [htext.next] at ht
      exact absurd (hf.symm.trans ht) (by simp)

theorem Within.started_of_call (h : s.Within spec) (hc : s.Call answer t) : t.started = true := by
  cases hc with
  | exhausted hf => exact (h.finished hf).1
  | read hf hb => rw [hb.next]
  | failed hf ht =>
    obtain ⟨text, htext, -⟩ := ht
    rw [htext.next]
    rfl

theorem Call.position_le (hc : s.Call answer t) : s.position ≤ t.position := by
  cases hc with
  | exhausted => exact Nat.le_refl _
  | read _ hb => exact Nat.le_of_lt hb.position_lt
  | failed _ ht =>
    obtain ⟨text, htext, -⟩ := ht
    rw [htext.next]
    exact Nat.le_add_right _ _

/-- Behind the first call a scanner that does not move has come to its end, or it is stuck in
front of a character that begins no chunk. -/
theorem Call.moves (hc : s.Call answer t) (hs : s.started = true) :
    s.position < t.position ∨ t = s ∧
      (s.finished = true ∧ answer = .ok none ∨
        s.finished = false ∧ answer = .error ⟨s.position, .trailingText⟩) := by
  cases hc with
  | exhausted hf => exact .inr ⟨rfl, .inl ⟨hf, rfl⟩⟩
  | read hf hb => exact .inl hb.position_lt
  | @failed fault t hf ht =>
    obtain ⟨text, htext, hstill⟩ := ht
    have hstarted : { s with started := true } = s := by rw [← hs]
    rw [hstarted] at htext
    rcases List.eq_nil_or_concat text with rfl | ⟨text, c, rfl⟩
    · refine .inr ⟨?_, .inr ⟨hf, ?_⟩⟩
      · have hrest : s.rest = t.rest := htext.rest
        rw [htext.next, ← hrest]
        rfl
      · rcases hstill rfl with hs' | rfl
        · rw [hs] at hs'
          cases hs'
        · rfl
    · refine .inl ?_
      rw [htext.next]
      simp

end

/-! Many calls -/

/-- The scanner behind a number of calls. -/
def behind (s : Scanner) (calls : Nat) : Scanner := (fun t => t.nextBatch.2)^[calls] s

/-- What a call answers when so many calls have been made before it. -/
def answer (s : Scanner) (calls : Nat) : Except Fault (Option Batch) := (s.behind calls).nextBatch.1

theorem behind_succ (s : Scanner) (k : Nat) : s.behind (k + 1) = (s.behind k).nextBatch.2 :=
  Function.iterate_succ_apply' _ k s

theorem behind_nextBatch (s : Scanner) (k : Nat) : s.nextBatch.2.behind k = s.behind (k + 1) :=
  (Function.iterate_succ_apply _ k s).symm

theorem call_behind (s : Scanner) (k : Nat) :
    (s.behind k).Call (s.answer k) (s.behind (k + 1)) := by
  rw [behind_succ]
  exact call_nextBatch _

theorem steps_eq (s : Scanner) (n : Nat) : s.steps n = (List.range n).map s.answer := by
  induction n generalizing s with
  | zero => rfl
  | succ n ih =>
    rw [steps, ih, List.range_succ_eq_map, List.map_cons, List.map_map]
    refine congrArg _ (List.map_congr_left fun k _ => ?_)
    exact congrArg (·.nextBatch.1) (behind_nextBatch s k)

section
variable (spec : Text)

theorem within_behind (k : Nat) : ((ofText spec).behind k).Within spec := by
  induction k with
  | zero => exact within_ofText spec
  | succ k ih => exact ih.call (call_behind _ k)

theorem started_behind (k : Nat) : ((ofText spec).behind (k + 1)).started = true :=
  (within_behind spec k).started_of_call (call_behind _ k)

theorem behind_of_still {s : Scanner} {k : Nat} (h : s.behind (k + 1) = s.behind k) {j : Nat}
    (hj : k ≤ j) : s.behind j = s.behind k := by
  induction j, hj using Nat.le_induction with
  | base => rfl
  | succ j _ ih => rw [behind_succ, ih, ← behind_succ, h]

/-- Each call behind the first moves the scanner by at least one character until it stands
still, and there are no more calls of that kind than characters. -/
theorem behind_still :
    (ofText spec).behind (spec.length + 2) = (ofText spec).behind (spec.length + 1) := by
  have hmoved (k : Nat) : k ≤ ((ofText spec).behind (k + 1)).position ∨
      (ofText spec).behind (k + 2) = (ofText spec).behind (k + 1) := by
    induction k with
    | zero => exact .inl (Nat.zero_le _)
    | succ k ih =>
      rcases ih with hle | hstill
      · rcases (call_behind (ofText spec) (k + 1)).moves (started_behind spec k) with hlt | ⟨he, -⟩
        · exact .inl (Nat.lt_of_le_of_lt hle hlt)
        · refine .inr ?_
          rw [behind_succ, he, ← behind_succ, he]
      · refine .inr ?_
        rw [behind_succ, hstill, ← behind_succ, hstill]
  rcases hmoved spec.length with hle | hstill
  · rcases (call_behind (ofText spec) (spec.length + 1)).moves (started_behind spec _) with
      hlt | ⟨he, -⟩
    · have hmax := (within_behind spec (spec.length + 1 + 1)).position_le
      omega
    · exact he
  · exact hstill

end

theorem answer_nextBatch (s : Scanner) (k : Nat) : s.nextBatch.2.answer k = s.answer (k + 1) :=
  congrArg (·.nextBatch.1) (behind_nextBatch s k)

/-- Reading all batches is calling until a call gives none. -/
theorem batches_eq_calls (s : Scanner) :
    ∃ bs, bs.length ≤ s.rest.length ∧ s.steps bs.length = bs.map (fun b => .ok (some b)) ∧
      (s.answer bs.length = .ok none ∧ s.batches = .ok bs ∨
        ∃ fault, s.answer bs.length = .error fault ∧ s.batches = .error fault) := by
  induction hn : s.rest.length using Nat.strongRecOn generalizing s with
  | ind n ih =>
    cases hf : s.finished with
    | true =>
      have hnext : s.nextBatch = (.ok none, s) := by simp [nextBatch, hf]
      exact ⟨[], Nat.zero_le n, rfl, .inl ⟨congrArg Prod.fst hnext, batches_of_finished hf⟩⟩
    | false =>
      rcases hb : s.batch with ⟨fault | b, t⟩
      · have hnext : s.nextBatch = (.error fault, t) := by simp [nextBatch, hf, hb]
        exact ⟨[], Nat.zero_le n, rfl,
          .inr ⟨fault, congrArg Prod.fst hnext, batches_of_batch_fault hf hb⟩⟩
      · have hnext : s.nextBatch = (.ok (some b), t) := by simp [nextBatch, hf, hb]
        have hlt := length_rest_batch_lt hb
        obtain ⟨bs, hle, hsteps, hend⟩ := ih t.rest.length (hn ▸ hlt) t rfl
        refine ⟨b :: bs, ?_, ?_, ?_⟩
        · rw [List.length_cons]
          omega
        · rw [List.length_cons, steps, hnext, List.map_cons, hsteps]
        · have hanswer : s.answer (bs.length + 1) = t.answer bs.length := by
            rw [← answer_nextBatch, hnext]
          rw [List.length_cons, hanswer, batches_of_batch hf hb]
          rcases hend with ⟨hnone, hbs⟩ | ⟨fault, hfault, hbs⟩
          · exact .inl ⟨hnone, by rw [hbs]; rfl⟩
          · exact .inr ⟨fault, hfault, by rw [hbs]; rfl⟩

theorem tokenize_eq_calls (spec : Text) :
    ∃ bs, bs.length ≤ spec.length ∧
      (ofText spec).steps bs.length = bs.map (fun b => .ok (some b)) ∧
      ((ofText spec).answer bs.length = .ok none ∧ tokenize spec = .ok bs ∨
        ∃ fault, (ofText spec).answer bs.length = .error fault ∧
          tokenize spec = .error (fault.inside spec)) := by
  obtain ⟨bs, hle, hsteps, hend⟩ := batches_eq_calls (ofText spec)
  refine ⟨bs, hle, hsteps, ?_⟩
  rw [tokenize]
  rcases hend with ⟨hnone, hbs⟩ | ⟨fault, hfault, hbs⟩
  · exact .inl ⟨hnone, by rw [hbs]; rfl⟩
  · exact .inr ⟨fault, hfault, by rw [hbs]; rfl⟩

theorem position_lt_of_batch {s : Scanner} {k : Nat} {b : Batch} (h : s.answer k = .ok (some b)) :
    (s.behind k).position < (s.behind (k + 1)).position := by
  have hc := call_behind s k
  rw [h] at hc
  cases hc with
  | read _ hb => exact hb.position_lt

theorem position_lt_of_fault {spec : Text} {k : Nat} {fault : Fault}
    (h : (ofText spec).answer k = .error fault) :
    ((ofText spec).behind k).position < ((ofText spec).behind (k + 1)).position ∨ k = 0 ∨
      fault = ⟨((ofText spec).behind k).position, .trailingText⟩ ∧
        ((ofText spec).behind (k + 1)).position = ((ofText spec).behind k).position := by
  cases k with
  | zero => exact .inr (.inl rfl)
  | succ k =>
    rcases (call_behind (ofText spec) (k + 1)).moves (started_behind spec k) with
      hlt | ⟨hstill, ⟨-, hnone⟩ | ⟨-, hfault⟩⟩
    · exact .inl hlt
    · rw [h] at hnone
      cases hnone
    · rw [h] at hfault
      cases hfault
      exact .inr (.inr ⟨rfl, congrArg position hstill⟩)

theorem finished_of_finished {s : Scanner} {j k : Nat} (hj : (s.behind j).finished = true)
    (hk : s.behind (k + 1) = s.behind k) : (s.behind k).finished = true := by
  have hstill : s.behind (j + 1) = s.behind j := by
    rw [behind_succ, nextBatch, if_pos hj]
  rw [← behind_of_still hk (Nat.le_max_right j k), behind_of_still hstill (Nat.le_max_left j k)]
  exact hj

theorem exhausted_or_stuck (spec : Text) :
    (∃ k, k ≤ spec.length ∧ ((ofText spec).behind (k + 1)).finished = true) ∧
        (∀ k, spec.length < k → (ofText spec).answer k = .ok none ∧
          ((ofText spec).behind k).position = spec.length) ∨
      (∀ k, ((ofText spec).behind k).finished = false) ∧
        ∃ p, ∀ k, spec.length < k → (ofText spec).answer k = .error ⟨p, .trailingText⟩ ∧
          ((ofText spec).behind k).position = p := by
  have hstill := behind_still spec
  have hfinal {k : Nat} (hk : spec.length < k) :
      (ofText spec).behind k = (ofText spec).behind (spec.length + 1) :=
    behind_of_still hstill hk
  rcases (call_behind (ofText spec) (spec.length + 1)).moves (started_behind spec _) with
    hlt | ⟨-, ⟨hf, hnone⟩ | ⟨hf, hfault⟩⟩
  · exact absurd (hstill ▸ hlt) (Nat.lt_irrefl _)
  · refine .inl ⟨⟨spec.length, Nat.le_refl _, hf⟩, fun k hk => ?_⟩
    have hw := within_behind spec (spec.length + 1)
    rw [answer, hfinal hk]
    exact ⟨hnone, hw.position_eq_iff.2 (hw.finished hf).2⟩
  · refine .inr ⟨fun k => ?_, ((ofText spec).behind (spec.length + 1)).position, fun k hk => ?_⟩
    · rw [Bool.eq_false_iff]
      intro hk
      rw [finished_of_finished hk hstill] at hf
      cases hf
    · rw [answer, hfinal hk]
      exact ⟨hfault, rfl⟩

/-- The outcomes of calls in a row are the answers of the calls. The position never goes back. A
call that gives a batch moves it on, and so does one that fails, but for the first call and for
a scanner that is stuck. After as many calls as there are characters, and one more, all answers
are equal: no batch, when some call has finished the string, and otherwise the complaint about
the character at which the scanner is stuck. Reading the whole string is a matter of at most as
many calls with a batch as there are characters. -/
theorem calls_settle (spec : Text) :
    (∀ n, (ofText spec).steps n = (List.range n).map (ofText spec).answer) ∧
    (∀ k, ((ofText spec).behind k).position ≤ ((ofText spec).behind (k + 1)).position ∧
      ((ofText spec).behind k).position ≤ spec.length) ∧
    (∀ k b, (ofText spec).answer k = .ok (some b) →
      ((ofText spec).behind k).position < ((ofText spec).behind (k + 1)).position) ∧
    (∀ k fault, (ofText spec).answer k = .error fault →
      ((ofText spec).behind k).position < ((ofText spec).behind (k + 1)).position ∨ k = 0 ∨
        fault = ⟨((ofText spec).behind k).position, .trailingText⟩ ∧
          ((ofText spec).behind (k + 1)).position = ((ofText spec).behind k).position) ∧
    ((∃ k, k ≤ spec.length ∧ ((ofText spec).behind (k + 1)).finished = true) ∧
        (∀ k, spec.length < k → (ofText spec).answer k = .ok none ∧
          ((ofText spec).behind k).position = spec.length) ∨
      (∀ k, ((ofText spec).behind k).finished = false) ∧
        ∃ p, ∀ k, spec.length < k → (ofText spec).answer k = .error ⟨p, .trailingText⟩ ∧
          ((ofText spec).behind k).position = p) ∧
    ∃ bs, bs.length ≤ spec.length ∧
      (ofText spec).steps bs.length = bs.map (fun b => .ok (some b)) ∧
      ((ofText spec).answer bs.length = .ok none ∧ tokenize spec = .ok bs ∨
        ∃ fault, (ofText spec).answer bs.length = .error fault ∧
          tokenize spec = .error (fault.inside spec)) :=
  ⟨steps_eq (ofText spec),
    fun k => ⟨(call_behind _ k).position_le, (within_behind spec k).position_le⟩,
    fun _ _ => position_lt_of_batch, fun _ _ => position_lt_of_fault, exhausted_or_stuck spec,
    tokenize_eq_calls spec⟩

/-- The first call fails and does not move, the third fails and moves, and then it is stuck. -/
example : (ofText ",a.".toList).steps 5 =
    [.error ⟨0, .emptySegment⟩, .ok (some [⟨.sibling, "a".toList, 0⟩]), .error ⟨2, .emptySegment⟩,
      .error ⟨3, .trailingText⟩, .error ⟨3, .trailingText⟩] := by
  decide +kernel

end Scanner

end QueryShorthand
