import QueryShorthand.Proofs.Scans

/-! Where a string that is not accepted goes wrong, and in which way: each kind of fault has
a condition on the string alone, and what the scanner reports is what the conditions say. -/

namespace QueryShorthand
set_option autoImplicit false

/-- What is wrong at the boundary between two parts of a string. The text in front of it is
accepted, but for a name that has yet to begin; an accepted text is never empty. -/
inductive FaultBetween : Text → Text → Reason → Prop where
  | noName {rest : Text} (h : Separated rest) : FaultBetween [] rest .emptySegment
  | noNextName {before rest : Text} {c : Char} (h : Accepted before) (hc : c = '.' ∨ c = ',')
      (hrest : Separated rest) : FaultBetween before (c :: rest) .emptySegment
  | unclosed {before rest : Text} (h : Accepted before) (hrest : ')' ∉ rest) :
      FaultBetween before ('(' :: rest) .unclosedParen
  | emptyLabel {before rest : Text} (h : Accepted before) :
      FaultBetween before ('(' :: ')' :: rest) .emptyLabel
  | trailing {before rest : Text} {c : Char} (h : Accepted (before ++ [')'])) (hc : isNameChar c) :
      FaultBetween (before ++ [')']) (c :: rest) .trailingText
  | unmatched {before rest : Text} (h : Accepted before) :
      FaultBetween before (')' :: rest) .unmatchedParen
  | unmatchedInName {before rest : Text} {c : Char} (hc : isNameChar c)
      (h : Accepted (before ++ [c])) : FaultBetween before (')' :: rest) .unmatchedParen

def FaultAt (s : Text) (position : Nat) (reason : Reason) : Prop :=
  ∃ before rest, before ++ rest = s ∧ before.length = position ∧ FaultBetween before rest reason

namespace Scanner

theorem name_eq_error_iff {s : Scanner} {kind : ChunkKind} {start : Nat} {fault : Fault} :
    (s.name kind start).1 = .error fault ↔
      (∃ text rest, (∀ c ∈ text, isNameChar c) ∧ s.rest = text ++ ')' :: rest ∧
        fault = ⟨s.position + text.length, .unmatchedParen⟩) ∨
      Separated s.rest ∧ fault = ⟨start, .emptySegment⟩ := by
  constructor
  · intro h
    simp only [name, moved_rest, moved_position] at h
    split at h
    · rename_i rest hrest
      cases h
      refine .inl ⟨_, rest, fun c hc => List.mem_takeWhile_imp hc, ?_, rfl⟩
      rw [← hrest, List.takeWhile_append_dropWhile]
    · rename_i hrest
      split at h
      · rename_i htext
        cases h
        have hdrop := List.takeWhile_append_dropWhile (p := isNameChar) (l := s.rest)
        rw [htext, List.nil_append] at hdrop
        rw [hdrop] at hrest
        refine .inr ⟨separated_of_stops (hdrop ▸ stops_dropWhile) fun hp => ?_, rfl⟩
        obtain ⟨r, hr⟩ := List.head?_eq_some_iff.1 hp
        exact hrest r hr
      · cases h
  · rintro (⟨text, rest, hname, hrest, rfl⟩ | ⟨hsep, rfl⟩)
    · have hstop : Stops isNameChar (')' :: rest) := stops_cons.2 rfl
      simp only [name, hrest, takeWhile_append_of_stops hname hstop,
        dropWhile_append_of_stops hname hstop, moved_rest, moved_position]
    · have htake := takeWhile_append_of_stops (s := []) (by simp) hsep.stops
      have hdrop := dropWhile_append_of_stops (s := []) (by simp) hsep.stops
      rw [List.nil_append] at htake hdrop
      simp only [name, htake, hdrop, moved_rest, if_true]
      split
      · rename_i r hr
        rw [hr] at hsep
        simpa using hsep ')' rfl
      · rfl

theorem faultAfterLabel_eq_some_iff {s : Text} {reason : Reason} :
    faultAfterLabel s = some reason ↔
      ∃ c rest, s = c :: rest ∧
        (c = ')' ∧ reason = .unmatchedParen ∨ isNameChar c ∧ reason = .trailingText) := by
  cases s with
  | nil => simp [faultAfterLabel]
  | cons c rest =>
    simp only [faultAfterLabel, List.cons.injEq, isNameChar_iff, ne_eq]
    split
    · rename_i hc
      rcases hc with rfl | rfl | rfl <;> simp
    · rename_i hc
      simp only [not_or] at hc
      split
      · rename_i hparen
        subst hparen
        simp [eq_comm]
      · rename_i hparen
        simp [hc, hparen, eq_comm]

theorem label_eq_error_iff {s : Scanner} {start : Nat} {fault : Fault} :
    (s.label start).1 = .error fault ↔
      ')' ∉ s.rest ∧ fault = ⟨start, .unclosedParen⟩ ∨
      (∃ rest, s.rest = ')' :: rest ∧ fault = ⟨start, .emptyLabel⟩) ∨
      ∃ body rest reason, body ≠ [] ∧ ')' ∉ body ∧ s.rest = body ++ ')' :: rest ∧
        faultAfterLabel rest = some reason ∧
        fault = ⟨s.position + (body.length + 1), reason⟩ := by
  by_cases hclose : ')' ∈ s.rest
  · obtain ⟨body, rest, hrest, hbody⟩ := List.eq_append_cons_of_mem hclose
    have hopen := forall_bne_of_not_mem hbody
    have hstop : Stops (· != ')') (')' :: rest) := by simp
    have htake : s.rest.takeWhile (· != ')') = body := by
      rw [hrest, takeWhile_append_of_stops hopen hstop]
    have hdrop : s.rest.dropWhile (· != ')') = ')' :: rest := by
      rw [hrest, dropWhile_append_of_stops hopen hstop]
    have huniq {body' rest' : Text} (hbody' : ')' ∉ body')
        (he : s.rest = body' ++ ')' :: rest') : body' = body ∧ rest' = rest := by
      obtain ⟨hb, hr⟩ := append_inj_of_stops (forall_bne_of_not_mem hbody') (by simp) hopen hstop
        (he.symm.trans hrest)
      exact ⟨hb, (List.cons.inj hr).2⟩
    simp only [label, htake, hdrop]
    constructor
    · intro h
      split at h
      · rename_i hnil
        cases h
        exact .inr (.inl ⟨rest, by rw [hrest, hnil, List.nil_append], rfl⟩)
      · rename_i hne
        split at h
        · rename_i reason hreason
          cases h
          exact .inr (.inr ⟨body, rest, reason, hne, hbody, hrest, hreason, rfl⟩)
        · cases h
    · rintro (⟨hnot, -⟩ | ⟨rest', he, rfl⟩ | ⟨body', rest', reason, hne, hbody', he, hreason, rfl⟩)
      · exact absurd hclose hnot
      · obtain ⟨rfl, -⟩ := @huniq [] rest' (by simp) he
        simp
      · obtain ⟨rfl, rfl⟩ := huniq hbody' he
        rw [if_neg hne, hreason]
        rfl
  · have hdrop : s.rest.dropWhile (· != ')') = [] :=
      List.dropWhile_eq_nil_iff.2 (forall_bne_of_not_mem hclose)
    simp only [label, hdrop]
    constructor
    · intro h
      cases h
      exact .inl ⟨hclose, rfl⟩
    · rintro (⟨-, rfl⟩ | ⟨rest, he, -⟩ | ⟨body, rest, reason, -, -, he, -⟩)
      · rfl
      · exact absurd (he ▸ List.mem_cons_self) hclose
      · exact absurd (he ▸ List.mem_append_right body List.mem_cons_self) hclose

theorem nextChunk_ofText_eq_error_iff {s : Text} {fault : Fault} :
    (ofText s).nextChunk.1 = .error fault ↔
      (∃ text rest, (∀ c ∈ text, isNameChar c) ∧ s = text ++ ')' :: rest ∧
        fault = ⟨0 + text.length, .unmatchedParen⟩) ∨
      Separated s ∧ fault = ⟨0, .emptySegment⟩ :=
  name_eq_error_iff

theorem nextChunk_field_eq_error_iff {before rest : Text} {c : Char} (hc : c = '.' ∨ c = ',')
    {fault : Fault} :
    (between before (c :: rest)).nextChunk.1 = .error fault ↔
      (∃ text rest', (∀ c ∈ text, isNameChar c) ∧ rest = text ++ ')' :: rest' ∧
        fault = ⟨before.length + 1 + text.length, .unmatchedParen⟩) ∨
      Separated rest ∧ fault = ⟨before.length, .emptySegment⟩ := by
  rcases hc with rfl | rfl
  · exact name_eq_error_iff
  · exact name_eq_error_iff

theorem nextChunk_label_eq_error_iff {before rest : Text} {fault : Fault} :
    (between before ('(' :: rest)).nextChunk.1 = .error fault ↔
      ')' ∉ rest ∧ fault = ⟨before.length, .unclosedParen⟩ ∨
      (∃ rest', rest = ')' :: rest' ∧ fault = ⟨before.length, .emptyLabel⟩) ∨
      ∃ body rest' reason, body ≠ [] ∧ ')' ∉ body ∧ rest = body ++ ')' :: rest' ∧
        faultAfterLabel rest' = some reason ∧
        fault = ⟨before.length + 1 + (body.length + 1), reason⟩ :=
  label_eq_error_iff

end Scanner

theorem isName_concat {s : Text} (hs : ∀ c ∈ s, isNameChar c) {c : Char} (hc : isNameChar c) :
    IsName (s ++ [c]) := by
  refine ⟨by simp, fun d hd => ?_⟩
  rcases List.mem_append.1 hd with hd | hd
  · exact hs d hd
  · rwa [List.mem_singleton.1 hd]

theorem faultAt_field {before rest : Text} (h : Chunked before) {c : Char} (hc : c = '.' ∨ c = ',')
    {fault : Fault} (hfault : (Scanner.between before (c :: rest)).nextChunk.1 = .error fault) :
    FaultAt (before ++ c :: rest) fault.position fault.reason := by
  rcases (Scanner.nextChunk_field_eq_error_iff hc).1 hfault with
    ⟨text, rest', htext, rfl, rfl⟩ | ⟨hrest, rfl⟩
  · have ha : isNameChar 'a' := rfl
    have hname : IsName (text ++ ['a']) := isName_concat htext ha
    refine ⟨before ++ c :: text, ')' :: rest', by simp, by simp; omega, .unmatchedInName ha ?_⟩
    rw [List.append_assoc, List.cons_append]
    exact accepted_iff_chunked.2 (.field h hc hname)
  · exact ⟨before, c :: rest, rfl, rfl, .noNextName (accepted_iff_chunked.2 h) hc hrest⟩

theorem faultAt_label {before rest : Text} (h : Chunked before) {fault : Fault}
    (hfault : (Scanner.between before ('(' :: rest)).nextChunk.1 = .error fault) :
    FaultAt (before ++ '(' :: rest) fault.position fault.reason := by
  have ha := accepted_iff_chunked.2 h
  rcases Scanner.nextChunk_label_eq_error_iff.1 hfault with
    ⟨hrest, rfl⟩ | ⟨rest', rfl, rfl⟩ | ⟨body, rest', reason, hne, hbody, rfl, hreason, rfl⟩
  · exact ⟨before, '(' :: rest, rfl, rfl, .unclosed ha hrest⟩
  · exact ⟨before, '(' :: ')' :: rest', rfl, rfl, .emptyLabel ha⟩
  · have hlabel : Accepted ((before ++ '(' :: body) ++ [')']) := by
      rw [List.append_assoc, List.cons_append]
      exact accepted_iff_chunked.2 (.label h hne hbody)
    refine ⟨(before ++ '(' :: body) ++ [')'], rest', by simp, by simp; omega, ?_⟩
    obtain ⟨c, rest'', rfl, ⟨rfl, rfl⟩ | ⟨hc, rfl⟩⟩ :=
      Scanner.faultAfterLabel_eq_some_iff.1 hreason
    · exact .unmatched hlabel
    · exact .trailing hlabel hc

theorem faultAt_of_visits {s : Text} {t : Scanner} (h : (Scanner.ofText s).Visits t) {fault : Fault}
    (hfault : t.nextChunk.1 = .error fault) : FaultAt s fault.position fault.reason := by
  rcases h.standsIn with rfl | ⟨⟨before, rest, rfl, hbefore, hsep, rfl⟩, hne⟩
  · rcases Scanner.nextChunk_ofText_eq_error_iff.1 hfault with
      ⟨text, rest, htext, rfl, rfl⟩ | ⟨hsep, rfl⟩
    · have ha : isNameChar 'a' := rfl
      have hname : Accepted (text ++ ['a']) :=
        accepted_iff_chunked.2 (.name (isName_concat htext ha))
      exact ⟨text, ')' :: rest, rfl, (Nat.zero_add _).symm, .unmatchedInName ha hname⟩
    · exact ⟨[], s, rfl, rfl, .noName hsep⟩
  · cases rest with
    | nil => exact absurd rfl hne
    | cons c rest =>
      rcases separated_cons_iff.1 hsep with hc | hc | rfl
      · exact faultAt_field hbefore (.inl hc) hfault
      · exact faultAt_field hbefore (.inr hc) hfault
      · exact faultAt_label hbefore hfault

/-- The string ends in a name, or in a place where a name may begin. -/
def EndsInName (s : Text) : Prop :=
  (∀ c ∈ s, isNameChar c) ∨ ∃ before d text, s = before ++ d :: text ∧ Chunked before ∧
    (d = '.' ∨ d = ',') ∧ ∀ c ∈ text, isNameChar c

def EndsInLabel (s : Text) : Prop :=
  ∃ before body, s = before ++ '(' :: (body ++ [')']) ∧ Chunked before ∧ body ≠ [] ∧ ')' ∉ body

theorem Chunked.ends {s : Text} (h : Chunked s) : EndsInName s ∨ EndsInLabel s := by
  cases h with
  | name hs => exact .inl (.inl hs.2)
  | field h hc hs => exact .inl (.inr ⟨_, _, _, rfl, h, hc, hs.2⟩)
  | label h hne hbody => exact .inr ⟨_, _, rfl, h, hne, hbody⟩

theorem EndsInName.of_concat {s : Text} {c : Char} (h : EndsInName (s ++ [c])) :
    c = '.' ∨ c = ',' ∨ isNameChar c ∧ EndsInName s := by
  rcases h with h | ⟨before, d, text, he, hbefore, hd, htext⟩
  · exact .inr (.inr ⟨h c (by simp), .inl fun e he => h e (List.mem_append_left _ he)⟩)
  · rcases List.eq_nil_or_concat text with rfl | ⟨text', e, rfl⟩
    · obtain ⟨-, hcd⟩ := List.append_inj' he rfl
      cases hcd
      exact hd.imp_right .inl
    · rw [List.concat_eq_append] at he htext
      rw [← List.cons_append, ← List.append_assoc] at he
      obtain ⟨rfl, hce⟩ := List.append_inj' he rfl
      cases hce
      refine .inr (.inr ⟨htext c (by simp), .inr ⟨before, d, text', rfl, hbefore, hd, ?_⟩⟩)
      exact fun e he => htext e (List.mem_append_left _ he)

theorem EndsInLabel.of_concat {s : Text} {c : Char} (h : EndsInLabel (s ++ [c])) : c = ')' := by
  obtain ⟨before, body, he, -⟩ := h
  rw [← List.cons_append, ← List.append_assoc] at he
  exact (List.cons.inj (List.append_inj' he rfl).2).1

theorem EndsInName.exists_visits {before : Text} (h : EndsInName before) (rest : Text) :
    ∃ t, (Scanner.ofText (before ++ ')' :: rest)).Visits t ∧
      t.nextChunk.1 = .error ⟨before.length, .unmatchedParen⟩ := by
  rcases h with h | ⟨before, d, text, rfl, hbefore, hd, htext⟩
  · refine ⟨_, .start, Scanner.nextChunk_ofText_eq_error_iff.2 (.inl ⟨before, rest, h, rfl, ?_⟩)⟩
    rw [Nat.zero_add]
  · have hsep := separated_field hd (text ++ ')' :: rest)
    rw [List.append_assoc, List.cons_append]
    refine ⟨_, Scanner.visits_between hbefore hsep (List.cons_ne_nil _ _),
      (Scanner.nextChunk_field_eq_error_iff hd).2 (.inl ⟨text, rest, htext, rfl, ?_⟩)⟩
    simp only [List.length_append, List.length_cons, Fault.mk.injEq, and_true]
    omega

theorem EndsInLabel.exists_visits {before : Text} (h : EndsInLabel before) {rest : Text}
    {reason : Reason} (hreason : Scanner.faultAfterLabel rest = some reason) :
    ∃ t, (Scanner.ofText (before ++ rest)).Visits t ∧
      t.nextChunk.1 = .error ⟨before.length, reason⟩ := by
  obtain ⟨before, body, rfl, hbefore, hne, hbody⟩ := h
  have hsep := separated_label (body ++ ')' :: rest)
  have happend : before ++ '(' :: (body ++ [')']) ++ rest =
      before ++ '(' :: (body ++ ')' :: rest) := by simp
  rw [happend]
  refine ⟨_, Scanner.visits_between hbefore hsep (List.cons_ne_nil _ _),
    Scanner.nextChunk_label_eq_error_iff.2
      (.inr (.inr ⟨body, rest, reason, hne, hbody, rfl, hreason, ?_⟩))⟩
  simp only [List.length_append, List.length_cons, List.length_nil, Fault.mk.injEq, and_true]
  omega

theorem FaultBetween.exists_visits {before rest : Text} {reason : Reason}
    (h : FaultBetween before rest reason) :
    ∃ t, (Scanner.ofText (before ++ rest)).Visits t ∧
      t.nextChunk.1 = .error ⟨before.length, reason⟩ := by
  cases h with
  | noName h => exact ⟨_, .start, Scanner.nextChunk_ofText_eq_error_iff.2 (.inr ⟨h, rfl⟩)⟩
  | noNextName h hc hrest =>
    exact ⟨_, Scanner.visits_between (accepted_iff_chunked.1 h) (separated_field hc _) (by simp),
      (Scanner.nextChunk_field_eq_error_iff hc).2 (.inr ⟨hrest, rfl⟩)⟩
  | unclosed h hrest =>
    exact ⟨_, Scanner.visits_between (accepted_iff_chunked.1 h) (separated_label _) (by simp),
      Scanner.nextChunk_label_eq_error_iff.2 (.inl ⟨hrest, rfl⟩)⟩
  | emptyLabel h =>
    exact ⟨_, Scanner.visits_between (accepted_iff_chunked.1 h) (separated_label _) (by simp),
      Scanner.nextChunk_label_eq_error_iff.2 (.inr (.inl ⟨_, rfl, rfl⟩))⟩
  | @trailing before rest c h hc =>
    have hreason : Scanner.faultAfterLabel (c :: rest) = some .trailingText :=
      Scanner.faultAfterLabel_eq_some_iff.2 ⟨c, rest, rfl, .inr ⟨hc, rfl⟩⟩
    rcases (accepted_iff_chunked.1 h).ends with hname | hlabel
    · rcases hname.of_concat with hdot | hcomma | ⟨hparen, -⟩
      · exact absurd hdot (by decide)
      · exact absurd hcomma (by decide)
      · exact absurd hparen (by decide)
    · exact hlabel.exists_visits hreason
  | @unmatched before rest h =>
    have hreason : Scanner.faultAfterLabel (')' :: rest) = some .unmatchedParen :=
      Scanner.faultAfterLabel_eq_some_iff.2 ⟨')', rest, rfl, .inl ⟨rfl, rfl⟩⟩
    rcases (accepted_iff_chunked.1 h).ends with hname | hlabel
    · exact hname.exists_visits rest
    · exact hlabel.exists_visits hreason
  | @unmatchedInName before rest c hc h =>
    rcases (accepted_iff_chunked.1 h).ends with hname | hlabel
    · rcases hname.of_concat with rfl | rfl | ⟨-, hbefore⟩
      · cases hc
      · cases hc
      · exact hbefore.exists_visits rest
    · rw [hlabel.of_concat] at hc
      cases hc

theorem batches_eq_error_iff_faultAt {s : Text} {fault : Fault} :
    (Scanner.ofText s).batches = .error fault ↔ FaultAt s fault.position fault.reason := by
  rw [Scanner.batches_eq_error_iff rfl]
  constructor
  · rintro ⟨t, ht, hfault⟩
    exact faultAt_of_visits ht hfault
  · rintro ⟨before, rest, rfl, hposition, h⟩
    obtain ⟨t, ht, hfault⟩ := h.exists_visits
    rw [hposition] at hfault
    exact ⟨t, ht, hfault⟩

theorem tokenize_eq_error_iff {spec : Text} {e : ParseError} :
    tokenize spec = .error e ↔ e.spec = spec ∧ FaultAt spec e.position e.reason := by
  rw [← batches_eq_error_iff_faultAt, tokenize]
  obtain ⟨fault, s⟩ := e
  cases (Scanner.ofText spec).batches with
  | ok bs => simp [Except.mapError]
  | error fault' => simp [Except.mapError, Fault.inside, eq_comm, and_comm]

theorem faultAt_unique {s : Text} {p q : Nat} {reason reason' : Reason} (h : FaultAt s p reason)
    (h' : FaultAt s q reason') : p = q ∧ reason = reason' := by
  have htok : tokenize s = .error ⟨⟨p, reason⟩, s⟩ := tokenize_eq_error_iff.2 ⟨rfl, h⟩
  have htok' : tokenize s = .error ⟨⟨q, reason'⟩, s⟩ := tokenize_eq_error_iff.2 ⟨rfl, h'⟩
  cases htok.symm.trans htok'
  exact ⟨rfl, rfl⟩

/-- A string is rejected with the reason and the position that the conditions on it name, and
accepted when they name none. They never name two. Behind the first chunk, chunks are only
read where a connector or an opening parenthesis stands. -/
theorem tokenize_fails_iff_faultAt (spec : Text) :
    (∀ position reason, tokenize spec = .error ⟨⟨position, reason⟩, spec⟩ ↔
        FaultAt spec position reason) ∧
      (∀ e, tokenize spec = .error e → e.spec = spec) ∧
      (Accepted spec ↔ ∀ position reason, ¬ FaultAt spec position reason) ∧
      (∀ p q reason reason', FaultAt spec p reason → FaultAt spec q reason' →
        p = q ∧ reason = reason') ∧
      ∀ t, (Scanner.ofText spec).Visits t → t.started = true →
        ∃ c rest, t.rest = c :: rest ∧ (c = '.' ∨ c = ',' ∨ c = '(') := by
  have hiff (position : Nat) (reason : Reason) :
      tokenize spec = .error ⟨⟨position, reason⟩, spec⟩ ↔ FaultAt spec position reason := by
    rw [tokenize_eq_error_iff]
    exact and_iff_right rfl
  refine ⟨hiff, fun e he => (tokenize_eq_error_iff.1 he).1, ?_, fun p q reason reason' =>
    faultAt_unique, fun t ht hstarted => ?_⟩
  · constructor
    · rintro ⟨bs, hbs⟩ position reason h
      rw [(hiff position reason).2 h] at hbs
      cases hbs
    · intro hnone
      cases htok : tokenize spec with
      | ok bs => exact ⟨bs, htok⟩
      | error e =>
        obtain ⟨-, hfault⟩ := tokenize_eq_error_iff.1 htok
        exact absurd hfault (hnone e.position e.reason)
  · rcases ht.standsIn with rfl | ⟨⟨before, rest, -, -, hsep, rfl⟩, hne⟩
    · cases hstarted
    · change rest ≠ [] at hne
      cases rest with
      | nil => exact absurd rfl hne
      | cons c rest => exact ⟨c, rest, rfl, separated_cons_iff.1 hsep⟩

/-- A parenthesis that opens at the end is one that is never closed, not an empty label. -/
example : tokenize "a(".toList = .error ⟨⟨1, .unclosedParen⟩, "a(".toList⟩ := by decide +kernel

end QueryShorthand
