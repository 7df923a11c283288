import QueryShorthand.Proofs.Grammar

/-! Reading a string chunk by chunk. The scanner comes to stand behind a text exactly when
that text is accepted by itself and what follows does not prolong its last chunk; the first
chunk that cannot be read decides about the string. -/

namespace QueryShorthand
set_option autoImplicit false

def Accepted (s : Text) : Prop := ∃ bs, tokenize s = .ok bs

def IsName (s : Text) : Prop := s ≠ [] ∧ ∀ c ∈ s, isNameChar c

/-- A name, behind it further names with their connectors and labels in parentheses. -/
inductive Chunked : Text → Prop where
  | name {s : Text} (hs : IsName s) : Chunked s
  | field {before s : Text} {c : Char} (h : Chunked before) (hc : c = '.' ∨ c = ',')
      (hs : IsName s) : Chunked (before ++ c :: s)
  | label {before body : Text} (h : Chunked before) (hne : body ≠ []) (hbody : ')' ∉ body) :
      Chunked (before ++ '(' :: (body ++ [')']))

theorem separated_cons_iff {c : Char} {s : Text} :
    Separated (c :: s) ↔ c = '.' ∨ c = ',' ∨ c = '(' := by
  simp [Separated]

theorem separated_field {c : Char} (hc : c = '.' ∨ c = ',') (s : Text) : Separated (c :: s) := by
  rcases hc with rfl | rfl <;> simp [separated_cons_iff]

theorem separated_label (s : Text) : Separated ('(' :: s) :=
  separated_cons_iff.2 (.inr (.inr rfl))

namespace Scanner

/-- The scanners from which a chunk is read, one after another, as long as each chunk is
good and text is left. -/
inductive Visits (s : Scanner) : Scanner → Prop where
  | start : Visits s s
  | next {t u : Scanner} {c : Chunk} (h : Visits s t) (hc : t.nextChunk = (.ok c, u))
      (hu : u.rest ≠ []) : Visits s u

theorem finished_of_nextChunk {s t : Scanner} {c : Chunk} (hc : s.nextChunk = (.ok c, t)) :
    t.finished = s.finished := by
  rw [(nextChunk_eq_ok_iff.1 hc).2.next]

theorem Visits.finished {s t : Scanner} (h : s.Visits t) : t.finished = s.finished := by
  induction h with
  | start => rfl
  | next _ hc _ ih => rw [finished_of_nextChunk hc, ih]

theorem Visits.head {s t u : Scanner} {c : Chunk} (hc : s.nextChunk = (.ok c, t)) (ht : t.rest ≠ [])
    (h : t.Visits u) : s.Visits u := by
  induction h with
  | start => exact .next .start hc ht
  | next _ hc' hu ih => exact .next ih hc' hu

/-! The last chunk that is tried decides. -/

theorem batch_eq_error_iff_nextChunk {s t : Scanner} {fault : Fault} :
    s.batch = (.error fault, t) ↔ s.nextChunk = (.error fault, t) ∨
      ∃ c u, s.nextChunk = (.ok c, u) ∧ u.rest ≠ [] ∧ u.rest.head? ≠ some '.' ∧
        u.batch = (.error fault, t) := by
  rw [batch]
  split
  · rename_i hn
    simp [hn]
  · rename_i c u hn
    simp only [hn, Prod.mk.injEq, reduceCtorEq, false_and, false_or, Except.ok.injEq,
      ↓existsAndEq, true_and]
    split
    · rename_i hu
      simp [hu]
    · rename_i hu
      simp [hu]
    · rename_i hnil hdot
      have hhead : u.rest.head? ≠ some '.' := by
        intro hd
        obtain ⟨r, hr⟩ := List.head?_eq_some_iff.1 hd
        exact hdot r hr
      have hne : u.rest ≠ [] := hnil
      simp only [ne_eq, hne, hhead, not_false_eq_true, true_and]
      split <;> rename_i hu <;> simp [hu]

theorem batches_of_batch {s t : Scanner} {b : Batch} (hf : s.finished = false)
    (h : s.batch = (.ok b, t)) : s.batches = t.batches.map (b :: ·) := by
  rw [batches, if_neg (by simp [hf])]
  split <;> rename_i hb <;> rw [h] at hb <;> cases hb
  rfl

theorem batches_of_batch_fault {s t : Scanner} {fault : Fault} (hf : s.finished = false)
    (h : s.batch = (.error fault, t)) : s.batches = .error fault := by
  rw [batches, if_neg (by simp [hf])]
  split <;> rename_i hb <;> rw [h] at hb <;> cases hb
  rfl

theorem batches_of_fault {s t : Scanner} {fault : Fault} (hf : s.finished = false)
    (h : s.nextChunk = (.error fault, t)) : s.batches = .error fault :=
  batches_of_batch_fault hf (batch_eq_error_iff_nextChunk.2 (.inl h))

theorem batches_of_last {s t : Scanner} {c : Chunk} (hf : s.finished = false)
    (h : s.nextChunk = (.ok c, t)) (ht : t.rest = []) : s.batches = .ok [[c]] := by
  have hb : s.batch = (.ok [c], { t with finished := true }) :=
    batch_eq_ok_iff_nextChunk.2 ⟨c, t, h, .inl ⟨ht, rfl, rfl⟩⟩
  rw [batches_of_batch hf hb, batches_of_finished rfl]
  rfl

/-- A chunk is a batch by itself or is put in front of the next batch. -/
theorem batches_of_chunk {s t : Scanner} {c : Chunk} (hf : s.finished = false)
    (h : s.nextChunk = (.ok c, t)) (ht : t.rest ≠ []) : ∃ f, s.batches = t.batches.map f := by
  by_cases hdot : t.rest.head? = some '.'
  · have hb : s.batch = (.ok [c], t) :=
      batch_eq_ok_iff_nextChunk.2 ⟨c, t, h, .inr (.inl ⟨hdot, rfl, rfl⟩)⟩
    exact ⟨_, batches_of_batch hf hb⟩
  · have hf' : t.finished = false := (finished_of_nextChunk h).trans hf
    refine ⟨List.modifyHead (c :: ·), ?_⟩
    rcases hb : t.batch with ⟨fault | cs, u⟩
    · have hb' := batch_eq_error_iff_nextChunk.2 (.inr ⟨c, t, h, ht, hdot, hb⟩)
      rw [batches_of_batch_fault hf hb', batches_of_batch_fault hf' hb]
      rfl
    · have hb' : s.batch = (.ok (c :: cs), u) :=
        batch_eq_ok_iff_nextChunk.2 ⟨c, t, h, .inr (.inr ⟨ht, hdot, cs, rfl, hb⟩)⟩
      rw [batches_of_batch hf hb', batches_of_batch hf' hb]
      cases u.batches <;> rfl

theorem Visits.batches_eq {s t : Scanner} (hf : s.finished = false) (h : s.Visits t) :
    ∃ f, s.batches = t.batches.map f := by
  induction h with
  | start => exact ⟨id, by cases s.batches <;> rfl⟩
  | @next t u c h hc hu ih =>
    obtain ⟨f, hs⟩ := ih
    obtain ⟨g, ht⟩ := batches_of_chunk (h.finished.trans hf) hc hu
    exact ⟨f ∘ g, by rw [hs, ht]; cases u.batches <;> rfl⟩

theorem exists_visits_last (s : Scanner) :
    ∃ t, s.Visits t ∧ ((∃ fault, t.nextChunk.1 = .error fault) ∨
      ∃ c u, t.nextChunk = (.ok c, u) ∧ u.rest = []) := by
  induction hn : s.rest.length using Nat.strongRecOn generalizing s with
  | ind n ih =>
    rcases hc : s.nextChunk with ⟨fault | c, t⟩
    · exact ⟨s, .start, .inl ⟨fault, by rw [hc]⟩⟩
    · by_cases ht : t.rest = []
      · exact ⟨s, .start, .inr ⟨c, t, hc, ht⟩⟩
      · obtain ⟨u, hu, hlast⟩ := ih t.rest.length (hn ▸ length_rest_nextChunk_lt hc) t rfl
        exact ⟨u, .head hc ht hu, hlast⟩

theorem batches_eq_error_iff {s : Scanner} (hf : s.finished = false) {fault : Fault} :
    s.batches = .error fault ↔ ∃ t, s.Visits t ∧ t.nextChunk.1 = .error fault := by
  have hfault {t : Scanner} {fault : Fault} (h : s.Visits t) (ht : t.nextChunk.1 = .error fault) :
      s.batches = .error fault := by
    obtain ⟨f, hs⟩ := h.batches_eq hf
    rw [hs, batches_of_fault (h.finished.trans hf) (Prod.ext ht rfl)]
    rfl
  constructor
  · intro h
    obtain ⟨t, ht, ⟨fault', hfault'⟩ | ⟨c, u, hc, hu⟩⟩ := exists_visits_last s
    · cases (hfault ht hfault').symm.trans h
      exact ⟨t, ht, hfault'⟩
    · obtain ⟨f, hs⟩ := ht.batches_eq hf
      rw [hs, batches_of_last (ht.finished.trans hf) hc hu] at h
      cases h
  · rintro ⟨t, ht, hn⟩
    exact hfault ht hn

theorem batches_isOk_iff {s : Scanner} (hf : s.finished = false) :
    (∃ bs, s.batches = .ok bs) ↔ ∃ t c u, s.Visits t ∧ t.nextChunk = (.ok c, u) ∧ u.rest = [] := by
  constructor
  · rintro ⟨bs, hbs⟩
    obtain ⟨t, ht, ⟨fault, hfault⟩ | ⟨c, u, hc, hu⟩⟩ := exists_visits_last s
    · rw [(batches_eq_error_iff hf).2 ⟨t, ht, hfault⟩] at hbs
      cases hbs
    · exact ⟨t, c, u, ht, hc, hu⟩
  · rintro ⟨t, c, u, ht, hc, hu⟩
    obtain ⟨f, hs⟩ := ht.batches_eq hf
    rw [hs, batches_of_last (ht.finished.trans hf) hc hu]
    exact ⟨_, rfl⟩

/-! Where the scanner comes to stand -/

/-- The scanner that has read `before` and has `rest` in front of it. -/
def between (before rest : Text) : Scanner := ⟨before.length, rest, true, false⟩

theorem nextChunk_ofText {s rest : Text} (hs : IsName s) (hrest : Separated rest) :
    (ofText (s ++ rest)).nextChunk = (.ok ⟨.start, s, 0⟩, between s rest) := by
  refine nextChunk_eq_ok_iff.2 ⟨by simp [ofText], ?_, rfl, rfl, hrest, ?_⟩
  · exact (Chunk.legal_iff_of_name (by simp)).2 hs
  · simp [between, ofText, Chunk.written]

theorem nextChunk_field {before s rest : Text} {c : Char} (hc : c = '.' ∨ c = ',') (hs : IsName s)
    (hrest : Separated rest) :
    (between before (c :: (s ++ rest))).nextChunk =
      (.ok ⟨if c = '.' then .descend else .sibling, s, before.length⟩,
        between (before ++ c :: s) rest) := by
  rcases hc with rfl | rfl
  · refine nextChunk_eq_ok_iff.2 ⟨by simp [between], ?_, rfl, rfl, hrest, ?_⟩
    · exact (Chunk.legal_iff_of_name (by simp)).2 hs
    · simp [between, Chunk.written]
  · refine nextChunk_eq_ok_iff.2 ⟨by simp [between], ?_, rfl, rfl, hrest, ?_⟩
    · exact (Chunk.legal_iff_of_name (by simp)).2 hs
    · simp [between, Chunk.written]

theorem nextChunk_label {before body rest : Text} (hne : body ≠ []) (hbody : ')' ∉ body)
    (hrest : Separated rest) :
    (between before ('(' :: (body ++ ')' :: rest))).nextChunk =
      (.ok ⟨.label, body, before.length⟩, between (before ++ '(' :: (body ++ [')'])) rest) := by
  refine nextChunk_eq_ok_iff.2 ⟨by simp [between], ?_, rfl, ?_, hrest, ?_⟩
  · exact (Chunk.legal_iff_of_label rfl).2 ⟨hne, hbody⟩
  · simp [between, Chunk.written]
  · simp [between, Chunk.written]

theorem exists_nextChunk_of_chunked {before rest : Text} (h : Chunked before)
    (hrest : Separated rest) :
    ∃ t c, (ofText (before ++ rest)).Visits t ∧ t.nextChunk = (.ok c, between before rest) := by
  induction h generalizing rest with
  | name hs => exact ⟨_, _, .start, nextChunk_ofText hs hrest⟩
  | @field before s c h hc hs ih =>
    obtain ⟨t, d, ht, hd⟩ := ih (separated_field hc (s ++ rest))
    rw [List.append_assoc, List.cons_append]
    exact ⟨_, _, .next ht hd (List.cons_ne_nil _ _), nextChunk_field hc hs hrest⟩
  | @label before body h hne hbody ih =>
    obtain ⟨t, d, ht, hd⟩ := ih (separated_label (body ++ ')' :: rest))
    have happend : before ++ '(' :: (body ++ [')']) ++ rest =
        before ++ '(' :: (body ++ ')' :: rest) := by simp
    rw [happend]
    exact ⟨_, _, .next ht hd (List.cons_ne_nil _ _), nextChunk_label hne hbody hrest⟩

theorem visits_between {before rest : Text} (h : Chunked before) (hrest : Separated rest)
    (hne : rest ≠ []) : (ofText (before ++ rest)).Visits (between before rest) := by
  obtain ⟨t, c, ht, hc⟩ := exists_nextChunk_of_chunked h hrest
  exact .next ht hc hne

/-- The scanner has read chunks up to a place where a new one may begin. -/
def StandsIn (s : Text) (t : Scanner) : Prop :=
  ∃ before rest, before ++ rest = s ∧ Chunked before ∧ Separated rest ∧ t = between before rest

theorem standsIn_of_nextChunk {s : Text} {t u : Scanner} {c : Chunk}
    (h : t = ofText s ∨ StandsIn s t) (hc : t.nextChunk = (.ok c, u)) : StandsIn s u := by
  obtain ⟨hkind, hlegal, -, hrest, hsep, hnext⟩ := nextChunk_eq_ok_iff.1 hc
  rcases h with rfl | ⟨before, rest, rfl, hbefore, -, rfl⟩
  · have hstart : c.kind = .start := hkind.2 rfl
    have hwritten : c.written = c.text := by rw [Chunk.written, hstart]
    have hname : IsName c.text := (Chunk.legal_iff_of_name (by simp [hstart])).1 hlegal
    rw [hwritten] at hrest hnext
    refine ⟨c.text, u.rest, hrest.symm, .name hname, hsep, ?_⟩
    rw [hnext]
    simp [ofText, between]
  · change rest = _ at hrest
    have hbehind : Chunked (before ++ c.written) := by
      unfold Chunk.written
      cases hk : c.kind with
      | start =>
        have hfalse : true = false := hkind.1 hk
        cases hfalse
      | descend =>
        exact .field hbefore (.inl rfl) ((Chunk.legal_iff_of_name (by simp [hk])).1 hlegal)
      | sibling =>
        exact .field hbefore (.inr rfl) ((Chunk.legal_iff_of_name (by simp [hk])).1 hlegal)
      | label =>
        obtain ⟨hne, hbody⟩ := (Chunk.legal_iff_of_label hk).1 hlegal
        exact .label hbefore hne hbody
    refine ⟨before ++ c.written, u.rest, ?_, hbehind, hsep, ?_⟩
    · rw [hrest, List.append_assoc]
    · rw [hnext]
      simp [between]

theorem Visits.standsIn {s : Text} {t : Scanner} (h : (ofText s).Visits t) :
    t = ofText s ∨ StandsIn s t ∧ t.rest ≠ [] := by
  induction h with
  | start => exact .inl rfl
  | next _ hc hu ih => exact .inr ⟨standsIn_of_nextChunk (ih.imp_right And.left) hc, hu⟩

end Scanner

theorem accepted_iff_chunked {s : Text} : Accepted s ↔ Chunked s := by
  have hbatches : Accepted s ↔ ∃ bs, (Scanner.ofText s).batches = .ok bs :=
    exists_congr fun bs => tokenize_eq_ok_iff_batches
  rw [hbatches, Scanner.batches_isOk_iff rfl]
  constructor
  · rintro ⟨t, c, u, ht, hc, hu⟩
    obtain ⟨before, rest, rfl, hbefore, -, rfl⟩ :=
      Scanner.standsIn_of_nextChunk (ht.standsIn.imp_right And.left) hc
    change rest = [] at hu
    rwa [hu, List.append_nil]
  · intro h
    have hend : Separated [] := by simp [Separated]
    obtain ⟨t, c, ht, hc⟩ := Scanner.exists_nextChunk_of_chunked h hend
    rw [List.append_nil] at ht
    exact ⟨t, c, _, ht, hc, rfl⟩

end QueryShorthand
