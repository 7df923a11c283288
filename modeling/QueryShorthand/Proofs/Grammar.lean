import Mathlib.Data.Set.Function
import QueryShorthand.Scanner
import QueryShorthand.Text.Spans

/-! The grammar of shorthand strings. The scanner accepts exactly the strings that are
written by a grammatical list of batches, and gives that list back with its positions. -/

namespace QueryShorthand
set_option autoImplicit false

/-- Neither a name nor a label is empty. A name holds no delimiter, a label no closing
parenthesis. -/
def Chunk.Legal (c : Chunk) : Prop :=
  c.text ≠ [] ∧
    match c.kind with
    | .label => ')' ∉ c.text
    | _ => '.' ∉ c.text ∧ ',' ∉ c.text ∧ '(' ∉ c.text ∧ ')' ∉ c.text

/-- A batch has one chunk of its opening kind and goes on with siblings and labels. -/
def Batch.OpenedBy (kind : ChunkKind) (b : Batch) : Prop :=
  ∃ c cs, b = c :: cs ∧ c.kind = kind ∧ ∀ d ∈ cs, d.kind = .sibling ∨ d.kind = .label

structure Grammatical (bs : List Batch) : Prop where
  opened : ∃ b others, bs = b :: others ∧ Batch.OpenedBy .start b ∧
    ∀ b' ∈ others, Batch.OpenedBy .descend b'
  legal : ∀ b ∈ bs, ∀ c ∈ b, c.Legal
  /-- A chunk's position counts the characters that are written before it. -/
  positioned : ∀ before c behind, bs.flatten = before ++ c :: behind →
    c.position = (Batch.written before).length

theorem Grammatical.head_ne_label {bs : List Batch} (h : Grammatical bs) :
    ∀ b ∈ bs, ∀ c ∈ b.head?, c.kind ≠ .label := by
  have hopened {kind : ChunkKind} (hkind : kind ≠ .label) {b : Batch} (hb : b.OpenedBy kind) :
      ∀ c ∈ b.head?, c.kind ≠ .label := by
    obtain ⟨c, cs, rfl, hc, -⟩ := hb
    intro d hd
    cases hd
    exact hc ▸ hkind
  obtain ⟨b, others, rfl, hb, hothers⟩ := h.opened
  refine List.forall_mem_cons.2 ⟨hopened (by simp) hb, fun b' hb' => ?_⟩
  exact hopened (by simp) (hothers b' hb')

theorem isNameChar_iff {c : Char} :
    isNameChar c ↔ c ≠ '.' ∧ c ≠ ',' ∧ c ≠ '(' ∧ c ≠ ')' := by
  simp [isNameChar, and_assoc]

theorem forall_isNameChar_iff {s : Text} :
    (∀ c ∈ s, isNameChar c) ↔ '.' ∉ s ∧ ',' ∉ s ∧ '(' ∉ s ∧ ')' ∉ s := by
  simp only [isNameChar_iff, ne_eq, forall_and, List.forall_mem_ne']

theorem Chunk.legal_iff_of_name {c : Chunk} (h : c.kind ≠ .label) :
    c.Legal ↔ c.text ≠ [] ∧ ∀ d ∈ c.text, isNameChar d := by
  rw [forall_isNameChar_iff, Legal]
  split
  · contradiction
  · rfl

theorem Chunk.legal_iff_of_label {c : Chunk} (h : c.kind = .label) :
    c.Legal ↔ c.text ≠ [] ∧ ')' ∉ c.text := by
  rw [Legal, h]

/-! One chunk -/

def Separated (s : Text) : Prop := ∀ c ∈ s.head?, c = '.' ∨ c = ',' ∨ c = '('

theorem Separated.stops {s : Text} (h : Separated s) : Stops isNameChar s := by
  intro c hc
  rcases h c hc with rfl | rfl | rfl <;> rfl

theorem separated_of_stops {s : Text} (h : Stops isNameChar s) (hp : ')' ∉ s.head?) :
    Separated s := by
  intro c hc
  have hstop := h c hc
  have hparen : c ≠ ')' := by
    intro he
    subst he
    exact hp hc
  simp only [isNameChar, Bool.and_eq_false_iff, bne_eq_false_iff_eq] at hstop
  rcases hstop with ((hc | hc) | hc) | hc
  · exact .inl hc
  · exact .inr (.inl hc)
  · exact .inr (.inr hc)
  · exact absurd hc hparen

theorem faultAfterLabel_eq_none_iff {s : Text} :
    Scanner.faultAfterLabel s = none ↔ Separated s := by
  cases s with
  | nil => simp [Scanner.faultAfterLabel, Separated]
  | cons c s =>
    simp only [Scanner.faultAfterLabel, Separated, List.head?_cons, Option.mem_some_iff,
      forall_eq']
    split
    · rename_i h
      exact ⟨fun _ => h, fun _ => rfl⟩
    · rename_i h
      refine ⟨fun hf => ?_, fun hf => absurd hf h⟩
      split at hf <;> simp at hf

theorem Chunk.written_of_following {c : Chunk} (h : c.kind = .sibling ∨ c.kind = .label) :
    ∃ d r, c.written = d :: r ∧ (d = ',' ∨ d = '(') := by
  rcases h with h | h
  · exact ⟨',', c.text, by rw [Chunk.written, h], .inl rfl⟩
  · exact ⟨'(', c.text ++ [')'], by rw [Chunk.written, h], .inr rfl⟩

/-- The chunks stand one behind the other from a position on. -/
def Laid (start : Nat) : List Chunk → Prop
  | [] => True
  | c :: cs => c.position = start ∧ Laid (start + c.written.length) cs

@[simp] theorem Batch.written_nil : Batch.written [] = [] := rfl

@[simp] theorem Batch.written_cons (c : Chunk) (cs : List Chunk) :
    Batch.written (c :: cs) = c.written ++ Batch.written cs := rfl

@[simp] theorem Batch.written_append (cs ds : List Chunk) :
    Batch.written (cs ++ ds) = Batch.written cs ++ Batch.written ds :=
  List.flatMap_append

theorem laid_append {start : Nat} {cs ds : List Chunk} :
    Laid start (cs ++ ds) ↔ Laid start cs ∧ Laid (start + (Batch.written cs).length) ds := by
  induction cs generalizing start with
  | nil => simp [Laid]
  | cons c cs ih =>
    rw [List.cons_append, Laid, Laid, ih, Batch.written_cons, List.length_append, Nat.add_assoc,
      and_assoc]

theorem laid_iff {start : Nat} {cs : List Chunk} :
    Laid start cs ↔ ∀ before c behind, cs = before ++ c :: behind →
      c.position = start + (Batch.written before).length := by
  constructor
  · intro h before c behind he
    subst he
    exact (laid_append.1 h).2.1
  · intro h
    induction cs generalizing start with
    | nil => trivial
    | cons c cs ih =>
      refine ⟨by simpa using h [] c cs rfl, ih fun before d behind he => ?_⟩
      rw [h (c :: before) d behind (by rw [he, List.cons_append]), Batch.written_cons,
        List.length_append, Nat.add_assoc]

namespace Scanner

theorem name_eq_ok_iff {s t : Scanner} {kind : ChunkKind} {start : Nat} {c : Chunk} :
    s.name kind start = (.ok c, t) ↔
      c.kind = kind ∧ c.position = start ∧ c.text ≠ [] ∧ (∀ d ∈ c.text, isNameChar d) ∧
        s.rest = c.text ++ t.rest ∧ Separated t.rest ∧ t = s.moved c.text.length t.rest := by
  constructor
  · intro h
    simp only [name, moved_rest] at h
    split at h
    · simp at h
    · rename_i hne
      split at h
      · simp at h
      · rename_i htext
        simp only [Prod.mk.injEq, Except.ok.injEq] at h
        obtain ⟨rfl, rfl⟩ := h
        refine ⟨rfl, rfl, htext, fun d hd => List.mem_takeWhile_imp hd,
          List.takeWhile_append_dropWhile.symm, ?_, rfl⟩
        apply separated_of_stops stops_dropWhile
        intro hp
        obtain ⟨r, hr⟩ := List.head?_eq_some_iff.1 hp
        exact hne r hr
  · intro h
    obtain ⟨rfl, rfl, htext, hname, hrest, hsep, ht⟩ := h
    have htake := takeWhile_append_of_stops hname hsep.stops
    have hdrop := dropWhile_append_of_stops hname hsep.stops
    simp only [name, hrest, htake, hdrop, moved_rest]
    split
    · rename_i r hr
      rw [hr] at hsep
      simpa using hsep ')' rfl
    · rw [if_neg htext, ← ht]

theorem label_eq_ok_iff {s t : Scanner} {start : Nat} {c : Chunk} :
    s.label start = (.ok c, t) ↔
      c.kind = .label ∧ c.position = start ∧ c.text ≠ [] ∧ ')' ∉ c.text ∧
        s.rest = c.text ++ ')' :: t.rest ∧ Separated t.rest ∧
        t = s.moved (c.text.length + 1) t.rest := by
  constructor
  · intro h
    simp only [label] at h
    split at h
    · simp at h
    · rename_i p rest hdrop
      have hp : p = ')' := by
        have hstop := stops_dropWhile (p := (· != ')')) (s := s.rest)
        rw [hdrop, stops_cons] at hstop
        simpa using hstop
      split at h
      · simp at h
      · rename_i htext
        split at h
        · simp at h
        · rename_i hfault
          simp only [Prod.mk.injEq, Except.ok.injEq] at h
          obtain ⟨rfl, rfl⟩ := h
          refine ⟨rfl, rfl, htext, ?_, ?_, faultAfterLabel_eq_none_iff.1 hfault, rfl⟩
          · intro hmem
            simpa using List.mem_takeWhile_imp hmem
          · have hsplit := (List.takeWhile_append_dropWhile (p := (· != ')')) (l := s.rest)).symm
            rwa [hdrop, hp] at hsplit
  · intro h
    obtain ⟨hkind, rfl, htext, hbody, hrest, hsep, ht⟩ := h
    have hopen := forall_bne_of_not_mem hbody
    have hstop : Stops (· != ')') (')' :: t.rest) := by simp
    simp only [label, hrest, takeWhile_append_of_stops hopen hstop,
      dropWhile_append_of_stops hopen hstop]
    rw [if_neg htext, faultAfterLabel_eq_none_iff.2 hsep, ← ht, ← hkind]

/-- What it takes to read `c` from `s` and to go on with `t`. -/
structure Reads (s : Scanner) (c : Chunk) (t : Scanner) : Prop where
  legal : c.Legal
  position : c.position = s.position
  rest : s.rest = c.written ++ t.rest
  separated : Separated t.rest
  next : t = ⟨s.position + c.written.length, t.rest, true, s.finished⟩

theorem name_opened_iff {s t : Scanner} {kind : ChunkKind} {c : Chunk} {opening rest : Text}
    (hkind : kind ≠ .label) (hopen : c.kind = kind → c.written = opening ++ c.text)
    (hrest : s.rest = opening ++ rest) :
    Scanner.name ⟨s.position + opening.length, rest, true, s.finished⟩ kind s.position =
        (.ok c, t) ↔
      c.kind = kind ∧ s.Reads c t := by
  rw [name_eq_ok_iff]
  constructor
  · intro h
    obtain ⟨hk, hpos, htext, hname, htail, hsep, ht⟩ := h
    have hw := hopen hk
    refine ⟨hk, (Chunk.legal_iff_of_name (hk ▸ hkind)).2 ⟨htext, hname⟩, hpos, ?_, hsep, ?_⟩
    · rw [hrest, hw, List.append_assoc, ← htail]
    · rw [ht, hw, List.length_append, ← Nat.add_assoc]
      rfl
  · intro h
    obtain ⟨hk, hlegal, hpos, hwritten, hsep, ht⟩ := h
    have hw := hopen hk
    obtain ⟨htext, hname⟩ := (Chunk.legal_iff_of_name (hk ▸ hkind)).1 hlegal
    refine ⟨hk, hpos, htext, hname, ?_, hsep, ?_⟩
    · rw [hrest, hw, List.append_assoc] at hwritten
      exact List.append_cancel_left hwritten
    · rw [hw, List.length_append, ← Nat.add_assoc] at ht
      exact ht

theorem label_opened_iff {s t : Scanner} {c : Chunk} {rest : Text} (hrest : s.rest = '(' :: rest) :
    Scanner.label ⟨s.position + 1, rest, true, s.finished⟩ s.position = (.ok c, t) ↔
      c.kind = .label ∧ s.Reads c t := by
  rw [label_eq_ok_iff]
  constructor
  · intro h
    obtain ⟨hk, hpos, htext, hbody, htail, hsep, ht⟩ := h
    refine ⟨hk, (Chunk.legal_iff_of_label hk).2 ⟨htext, hbody⟩, hpos, ?_, hsep, ?_⟩
    · simpa [Chunk.written, hk, hrest] using htail
    · rw [ht]
      simp only [moved, Chunk.written, hk, List.length_cons, List.length_append, List.length_nil]
      congr 1
      omega
  · intro h
    obtain ⟨hk, hlegal, hpos, hwritten, hsep, ht⟩ := h
    obtain ⟨htext, hbody⟩ := (Chunk.legal_iff_of_label hk).1 hlegal
    refine ⟨hk, hpos, htext, hbody, ?_, hsep, ?_⟩
    · simpa [Chunk.written, hk, hrest] using hwritten
    · rw [ht]
      simp only [moved, Chunk.written, hk, List.length_cons, List.length_append, List.length_nil]
      congr 1
      omega

theorem nextChunk_eq_ok_iff {s t : Scanner} {c : Chunk} :
    s.nextChunk = (.ok c, t) ↔ (c.kind = .start ↔ s.started = false) ∧ s.Reads c t := by
  obtain ⟨position, rest, started, finished⟩ := s
  cases started with
  | false =>
    have h := @name_opened_iff ⟨position, rest, false, finished⟩ t .start c [] rest (by simp)
      (fun hk => by simp [Chunk.written, hk]) rfl
    simpa [nextChunk] using h
  | true =>
    have hname {kind d r} (hkind : kind ≠ .label) (hopen : c.kind = kind → c.written = d :: c.text) :=
      @name_opened_iff ⟨position, d :: r, true, finished⟩ t kind c [d] r hkind hopen rfl
    have hlabel {r} := @label_opened_iff ⟨position, '(' :: r, true, finished⟩ t c r rfl
    have hdot {r} := @hname .descend '.' r (by simp) (fun hk => by simp [Chunk.written, hk])
    have hcomma {r} := @hname .sibling ',' r (by simp) (fun hk => by simp [Chunk.written, hk])
    constructor
    · intro h
      simp only [nextChunk, if_true] at h
      split at h
      · obtain ⟨hk, hr⟩ := hdot.1 h
        exact ⟨by simp [hk], hr⟩
      · obtain ⟨hk, hr⟩ := hcomma.1 h
        exact ⟨by simp [hk], hr⟩
      · obtain ⟨hk, hr⟩ := hlabel.1 h
        exact ⟨by simp [hk], hr⟩
      · simp at h
    · intro h
      obtain ⟨hk, hr⟩ := h
      have hrest := hr.rest
      simp only [Chunk.written] at hrest
      split at hrest
      · rename_i hkind
        simp [hkind] at hk
      · rename_i hkind
        subst hrest
        exact hdot.2 ⟨hkind, hr⟩
      · rename_i hkind
        subst hrest
        exact hcomma.2 ⟨hkind, hr⟩
      · rename_i hkind
        subst hrest
        exact hlabel.2 ⟨hkind, hr⟩

theorem batch_eq_ok_iff_nextChunk {s t : Scanner} {b : Batch} :
    s.batch = (.ok b, t) ↔ ∃ c u, s.nextChunk = (.ok c, u) ∧
      ((u.rest = [] ∧ b = [c] ∧ t = { u with finished := true }) ∨
        (u.rest.head? = some '.' ∧ b = [c] ∧ t = u) ∨
        (u.rest ≠ [] ∧ u.rest.head? ≠ some '.' ∧ ∃ cs, b = c :: cs ∧ u.batch = (.ok cs, t))) := by
  rw [batch]
  split
  · rename_i hn
    simp [hn]
  · rename_i c u hn
    simp only [hn, Prod.mk.injEq, Except.ok.injEq, ↓existsAndEq, true_and]
    split
    · rename_i hu
      simp [hu, eq_comm]
    · rename_i hu
      simp [hu, eq_comm]
    · rename_i hnil hdot
      have hhead : u.rest.head? ≠ some '.' := by
        intro hd
        obtain ⟨r, hr⟩ := List.head?_eq_some_iff.1 hd
        exact hdot r hr
      have hne : u.rest ≠ [] := hnil
      simp only [ne_eq, hne, hhead, not_false_eq_true, true_and, false_and, false_or]
      split
      · rename_i hu
        simp [hu]
      · rename_i hu
        simp only [hu, Prod.mk.injEq, Except.ok.injEq, eq_comm (a := b)]
        constructor
        · intro h
          obtain ⟨rfl, rfl⟩ := h
          exact ⟨_, rfl, rfl, rfl⟩
        · intro h
          obtain ⟨_, rfl, rfl, rfl⟩ := h
          exact ⟨rfl, rfl⟩

/-- The opening chunk of the next batch is a name without connector at the front of the
string only. -/
def Opens (s : Scanner) (b : Batch) : Prop :=
  ∃ c cs, b = c :: cs ∧ (c.kind = .start ↔ s.started = false) ∧
    ∀ d ∈ cs, d.kind = .sibling ∨ d.kind = .label

/-- What it takes to read the batch `b` from `s` and to go on with `t`. -/
structure ReadsBatch (s : Scanner) (b : Batch) (t : Scanner) : Prop where
  opens : s.Opens b
  legal : ∀ c ∈ b, c.Legal
  laid : Laid s.position b
  rest : s.rest = b.written ++ t.rest
  ended : t.rest = [] ∨ t.rest.head? = some '.'
  next : t = ⟨s.position + b.written.length, t.rest, true, s.finished || t.rest.isEmpty⟩

theorem ReadsBatch.single {s t u : Scanner} {c : Chunk}
    (hkind : c.kind = .start ↔ s.started = false) (hr : s.Reads c u)
    (hend : u.rest = [] ∨ u.rest.head? = some '.')
    (ht : t = { u with finished := u.finished || u.rest.isEmpty }) : s.ReadsBatch [c] t := by
  subst ht
  refine ⟨⟨c, [], rfl, hkind, by simp⟩, by simpa using hr.legal, ⟨hr.position, trivial⟩,
    by simpa using hr.rest, hend, ?_⟩
  rw [hr.next, Batch.written_cons, Batch.written_nil, List.append_nil]

theorem ReadsBatch.cons {s t u : Scanner} {c : Chunk} {cs : List Chunk}
    (hkind : c.kind = .start ↔ s.started = false) (hr : s.Reads c u) (hb : u.ReadsBatch cs t)
    (hcs : ∀ d ∈ cs, d.kind = .sibling ∨ d.kind = .label) : s.ReadsBatch (c :: cs) t := by
  have hposition : u.position = s.position + c.written.length := by rw [hr.next]
  refine ⟨⟨c, cs, rfl, hkind, hcs⟩, ?_, ⟨hr.position, hposition ▸ hb.laid⟩, ?_, hb.ended, ?_⟩
  · exact List.forall_mem_cons.2 ⟨hr.legal, hb.legal⟩
  · rw [hr.rest, hb.rest, Batch.written_cons, List.append_assoc]
  · have hfinished : u.finished = s.finished := by rw [hr.next]
    rw [hb.next, hposition, hfinished, Batch.written_cons, List.length_append, Nat.add_assoc]

/-- A batch does not go on at a `.`, so what follows its opening chunk is a sibling or a
label. -/
theorem ReadsBatch.following_of_head? {u t : Scanner} {cs : List Chunk} (hb : u.ReadsBatch cs t)
    (hstarted : u.started = true) (hdot : u.rest.head? ≠ some '.') :
    ∀ d ∈ cs, d.kind = .sibling ∨ d.kind = .label := by
  obtain ⟨d, ds, rfl, hd, hds⟩ := hb.opens
  refine List.forall_mem_cons.2 ⟨?_, hds⟩
  have hrest := hb.rest
  cases hk : d.kind with
  | start => simp [hk, hstarted] at hd
  | descend => simp [hrest, Chunk.written, hk] at hdot
  | sibling => exact .inl rfl
  | label => exact .inr rfl

theorem ReadsBatch.of_batch {s t : Scanner} {b : Batch} (h : s.batch = (.ok b, t)) :
    s.ReadsBatch b t := by
  induction hn : s.rest.length using Nat.strongRecOn generalizing s b with
  | ind n ih =>
    obtain ⟨c, u, hc, hu⟩ := batch_eq_ok_iff_nextChunk.1 h
    obtain ⟨hkind, hr⟩ := nextChunk_eq_ok_iff.1 hc
    rcases hu with ⟨hnil, rfl, rfl⟩ | ⟨hdot, rfl, rfl⟩ | ⟨-, hdot, cs, rfl, hcs⟩
    · exact .single hkind hr (.inl hnil) (by simp [hnil])
    · refine .single hkind hr (.inr hdot) ?_
      have hne : t.rest ≠ [] := by
        intro hnil
        simp [hnil] at hdot
      rw [List.isEmpty_eq_false_iff.2 hne, Bool.or_false]
    · have hlt : u.rest.length < n := hn ▸ length_rest_nextChunk_lt hc
      have hb := ih _ hlt hcs rfl
      exact .cons hkind hr hb (hb.following_of_head? (by rw [hr.next]) hdot)

theorem ReadsBatch.batch_eq {s t : Scanner} {b : Batch} (h : s.ReadsBatch b t) :
    s.batch = (.ok b, t) := by
  induction b generalizing s with
  | nil =>
    obtain ⟨c, cs, he, -⟩ := h.opens
    cases he
  | cons c cs ih =>
    obtain ⟨_, _, he, hkind, hcs⟩ := h.opens
    cases he
    have hrest := h.rest
    rw [Batch.written_cons, List.append_assoc] at hrest
    let u : Scanner :=
      ⟨s.position + c.written.length, Batch.written cs ++ t.rest, true, s.finished⟩
    have hread (hsep : Separated u.rest) : s.nextChunk = (.ok c, u) :=
      nextChunk_eq_ok_iff.2 ⟨hkind, h.legal c (by simp), h.laid.1, hrest, hsep, rfl⟩
    rw [batch_eq_ok_iff_nextChunk]
    cases cs with
    | nil =>
      rcases h.ended with hnil | hdot
      · refine ⟨c, u, hread ?_, .inl ⟨hnil, rfl, ?_⟩⟩
        · simp [Separated, u, hnil]
        · rw [h.next]
          simp [u, hnil]
      · refine ⟨c, u, hread ?_, .inr (.inl ⟨hdot, rfl, ?_⟩)⟩
        · simp [Separated, u, hdot]
        · have hne : t.rest ≠ [] := by
            intro hnil
            simp [hnil] at hdot
          rw [h.next]
          simp [u, hne]
    | cons d ds =>
      obtain ⟨e, r, he, hed⟩ := Chunk.written_of_following (hcs d (by simp))
      have hu : u.rest = e :: (r ++ (Batch.written ds ++ t.rest)) := by
        simp only [u, Batch.written_cons, he, List.cons_append, List.append_assoc]
      refine ⟨c, u, hread ?_, .inr (.inr ⟨by simp [hu], ?_, d :: ds, rfl, ih ?_⟩)⟩
      · intro x hx
        rw [hu] at hx
        cases hx
        exact .inr hed
      · rcases hed with rfl | rfl <;> simp [hu]
      · refine ⟨⟨d, ds, rfl, ?_, fun x hx => hcs x (by simp [hx])⟩,
          fun x hx => h.legal x (by simp [hx]), h.laid.2, rfl, h.ended, ?_⟩
        · rcases hcs d (by simp) with hk | hk <;> simp [hk, u]
        · rw [h.next]
          simp [u, Nat.add_assoc]

theorem batch_eq_ok_iff {s t : Scanner} {b : Batch} :
    s.batch = (.ok b, t) ↔ s.ReadsBatch b t :=
  ⟨ReadsBatch.of_batch, ReadsBatch.batch_eq⟩

theorem batches_of_finished {s : Scanner} (h : s.finished = true) : s.batches = .ok [] := by
  rw [batches, if_pos h]

theorem batches_eq_ok_iff {s : Scanner} {bs : List Batch} (h : s.finished = false) :
    s.batches = .ok bs ↔
      ∃ b u others, bs = b :: others ∧ s.ReadsBatch b u ∧ u.batches = .ok others := by
  rw [batches, if_neg (by simp [h])]
  split
  · rename_i hb
    simp [← batch_eq_ok_iff, hb]
  · rename_i b u hb
    simp only [← batch_eq_ok_iff, hb, Prod.mk.injEq, Except.ok.injEq]
    constructor
    · intro hm
      cases hu : u.batches with
      | error fault => simp [hu, Except.map] at hm
      | ok others =>
        simp only [hu, Except.map, Except.ok.injEq] at hm
        exact ⟨b, u, others, hm.symm, ⟨rfl, rfl⟩, hu⟩
    · intro h
      obtain ⟨_, _, others, rfl, ⟨rfl, rfl⟩, hu⟩ := h
      simp [hu, Except.map]

theorem batches_eq_ok_nil_iff {s : Scanner} : s.batches = .ok [] ↔ s.finished = true := by
  constructor
  · intro h
    by_contra hf
    obtain ⟨_, _, _, he, -⟩ := (batches_eq_ok_iff (Bool.eq_false_iff.2 hf)).1 h
    cases he
  · exact batches_of_finished

theorem Opens.openedBy_descend {s : Scanner} {b : Batch} {r : Text} (h : s.Opens b)
    (hstarted : s.started = true) (hrest : s.rest = b.written ++ r)
    (hdot : s.rest.head? = some '.') : Batch.OpenedBy .descend b := by
  obtain ⟨c, cs, rfl, hc, hcs⟩ := h
  refine ⟨c, cs, rfl, ?_, hcs⟩
  cases hk : c.kind with
  | start => simp [hk, hstarted] at hc
  | descend => rfl
  | sibling => simp [hrest, Chunk.written, hk] at hdot
  | label => simp [hrest, Chunk.written, hk] at hdot

theorem head?_written_of_openedBy {b : Batch} (h : b.OpenedBy .descend) (s : Text) :
    (b.written ++ s).head? = some '.' := by
  obtain ⟨c, cs, rfl, hc, -⟩ := h
  simp [Chunk.written, hc]

theorem opens_of_openedBy_descend {s : Scanner} {b : Batch} (h : b.OpenedBy .descend)
    (hstarted : s.started = true) : s.Opens b := by
  obtain ⟨c, cs, rfl, hc, hcs⟩ := h
  exact ⟨c, cs, rfl, by simp [hc, hstarted], hcs⟩

/-- By induction on the batches to come. Between two of them the scanner stands before
a `.`, and it has finished exactly when nothing is left. -/
theorem batches_eq_ok_cons_iff {s : Scanner} {b : Batch} {others : List Batch}
    (hf : s.finished = false) :
    s.batches = .ok (b :: others) ↔
      s.Opens b ∧ (∀ b' ∈ others, Batch.OpenedBy .descend b') ∧
        (∀ b' ∈ b :: others, ∀ c ∈ b', c.Legal) ∧ Laid s.position (b :: others).flatten ∧
        s.rest = Batch.written (b :: others).flatten := by
  induction others generalizing s b with
  | nil =>
    rw [batches_eq_ok_iff hf, List.flatten_singleton, List.forall_mem_singleton]
    constructor
    · intro h
      obtain ⟨_, u, _, he, hb, hu⟩ := h
      cases he
      have hfinished := batches_eq_ok_nil_iff.1 hu
      have hnil : u.rest = [] := by
        rw [hb.next, hf] at hfinished
        simpa using hfinished
      refine ⟨hb.opens, by simp, hb.legal, hb.laid, ?_⟩
      rw [hb.rest, hnil, List.append_nil]
    · intro h
      obtain ⟨hopens, -, hlegal, hlaid, hrest⟩ := h
      refine ⟨b, ⟨s.position + b.written.length, [], true, true⟩, [], rfl, ?_,
        batches_of_finished rfl⟩
      exact ⟨hopens, hlegal, hlaid, by simpa using hrest, .inl rfl, by simp⟩
  | cons b' others ih =>
    rw [batches_eq_ok_iff hf, List.flatten_cons, laid_append, Batch.written_append,
      List.forall_mem_cons (a := b), List.forall_mem_cons (a := b')]
    constructor
    · intro h
      obtain ⟨_, u, _, he, hb, hu⟩ := h
      cases he
      have hunfinished : u.finished = false := by
        by_contra h
        rw [batches_of_finished ((Bool.not_eq_false _).mp h)] at hu
        cases hu
      obtain ⟨hopens, hothers, hlegal, hlaid, hrest⟩ := (ih hunfinished).1 hu
      have hdot : u.rest.head? = some '.' := by
        refine hb.ended.resolve_left fun hnil => ?_
        rw [hb.next, hf, hnil] at hunfinished
        cases hunfinished
      have hstarted : u.started = true := by rw [hb.next]
      have hposition : u.position = s.position + b.written.length := by rw [hb.next]
      refine ⟨hb.opens, ⟨?_, hothers⟩, ⟨hb.legal, hlegal⟩, ⟨hb.laid, hposition ▸ hlaid⟩, ?_⟩
      · rw [List.flatten_cons, Batch.written_append] at hrest
        exact hopens.openedBy_descend hstarted hrest hdot
      · rw [hb.rest, hrest]
    · intro h
      obtain ⟨hopens, ⟨hopened, hothers⟩, ⟨hlegal, hlegals⟩, ⟨hlaid, hlaids⟩, hrest⟩ := h
      let u : Scanner :=
        ⟨s.position + b.written.length, Batch.written (b' :: others).flatten, true, false⟩
      have hdot : u.rest.head? = some '.' := by
        dsimp only [u]
        rw [List.flatten_cons, Batch.written_append]
        exact head?_written_of_openedBy hopened _
      have hne : u.rest ≠ [] := by
        intro hnil
        rw [hnil] at hdot
        cases hdot
      refine ⟨b, u, b' :: others, rfl, ⟨hopens, hlegal, hlaid, hrest, .inr hdot, ?_⟩,
        (ih rfl).2 ⟨opens_of_openedBy_descend hopened rfl, hothers, hlegals, hlaids, rfl⟩⟩
      rw [hf, List.isEmpty_eq_false_iff.2 hne]
      rfl

end Scanner

theorem grammatical_iff {bs : List Batch} : Grammatical bs ↔
    (∃ b others, bs = b :: others ∧ Batch.OpenedBy .start b ∧
      ∀ b' ∈ others, Batch.OpenedBy .descend b') ∧
    (∀ b ∈ bs, ∀ c ∈ b, c.Legal) ∧ Laid 0 bs.flatten := by
  simp only [laid_iff, Nat.zero_add]
  exact ⟨fun h => ⟨h.opened, h.legal, h.positioned⟩, fun h => ⟨h.1, h.2.1, h.2.2⟩⟩

theorem tokenize_eq_ok_iff_batches {spec : Text} {bs : List Batch} :
    tokenize spec = .ok bs ↔ (Scanner.ofText spec).batches = .ok bs := by
  unfold tokenize
  cases (Scanner.ofText spec).batches <;> simp [Except.mapError]

theorem tokenize_eq_ok_iff {spec : Text} {bs : List Batch} :
    tokenize spec = .ok bs ↔ Grammatical bs ∧ Batch.written bs.flatten = spec := by
  rw [tokenize_eq_ok_iff_batches, grammatical_iff]
  cases bs with
  | nil => simp [Scanner.batches_eq_ok_nil_iff, Scanner.ofText]
  | cons b others =>
    rw [Scanner.batches_eq_ok_cons_iff rfl]
    constructor
    · intro h
      obtain ⟨⟨c, cs, rfl, hc, hcs⟩, hothers, hlegal, hlaid, hrest⟩ := h
      exact ⟨⟨⟨_, others, rfl, ⟨c, cs, rfl, hc.2 rfl, hcs⟩, hothers⟩, hlegal, hlaid⟩, hrest.symm⟩
    · intro h
      obtain ⟨⟨⟨_, _, he, ⟨c, cs, rfl, hc, hcs⟩, hothers⟩, hlegal, hlaid⟩, rfl⟩ := h
      cases he
      exact ⟨⟨c, cs, rfl, by simp [hc, Scanner.ofText], hcs⟩, hothers, hlegal, hlaid, rfl⟩

/-- Accepted strings and grammatical lists of batches correspond one to one, and a list
corresponds to the string that it is written as. -/
theorem tokenize_bijOn_grammatical :
    (∀ spec bs, tokenize spec = .ok bs ↔ Grammatical bs ∧ Batch.written bs.flatten = spec) ∧
      Set.BijOn tokenize {spec | ∃ bs, tokenize spec = .ok bs}
        (Except.ok '' {bs | Grammatical bs}) := by
  refine ⟨fun spec bs => tokenize_eq_ok_iff, ?_, ?_, ?_⟩
  · intro spec hspec
    obtain ⟨bs, h⟩ := hspec
    exact ⟨bs, (tokenize_eq_ok_iff.1 h).1, h.symm⟩
  · intro spec hspec spec' _ he
    obtain ⟨bs, h⟩ := hspec
    have h' : tokenize spec' = .ok bs := he ▸ h
    rw [← (tokenize_eq_ok_iff.1 h).2, ← (tokenize_eq_ok_iff.1 h').2]
  · intro r hr
    obtain ⟨bs, h, rfl⟩ := hr
    have hread := tokenize_eq_ok_iff.2 ⟨h, rfl⟩
    exact ⟨_, ⟨bs, hread⟩, hread⟩

example : (tokenize "a.b,c(x:1).d".toList).toOption =
    some [[⟨.start, "a".toList, 0⟩],
      [⟨.descend, "b".toList, 1⟩, ⟨.sibling, "c".toList, 3⟩, ⟨.label, "x:1".toList, 5⟩],
      [⟨.descend, "d".toList, 10⟩]] := by
  decide +kernel

end QueryShorthand
