import QueryShorthand.Chunk
import QueryShorthand.ParseError

/-! Scanning a shorthand string batch by batch. A scanner that meets a fault stays where
it noticed it, forgets the batch it was reading and can go on from there; `tokenize`
stops at the first fault. -/

namespace QueryShorthand
set_option autoImplicit false

structure Scanner where
  position : Nat
  rest : Text
  /-- The opening name has been tried. -/
  started : Bool
  /-- A batch ended at the end of the string. -/
  finished : Bool
  deriving DecidableEq

namespace Scanner

def ofText (spec : Text) : Scanner := ⟨0, spec, false, false⟩

def moved (s : Scanner) (count : Nat) (rest : Text) : Scanner :=
  { s with position := s.position + count, rest }

def name (s : Scanner) (kind : ChunkKind) (start : Nat) : Except Fault Chunk × Scanner :=
  let text := s.rest.takeWhile isNameChar
  let next := s.moved text.length (s.rest.dropWhile isNameChar)
  match next.rest with
  | ')' :: _ => (.error ⟨next.position, .unmatchedParen⟩, next)
  | _ => if text = [] then (.error ⟨start, .emptySegment⟩, next) else (.ok ⟨kind, text, start⟩, next)

/-- What may stand directly behind a label: the end, a connector or another label. -/
def faultAfterLabel : Text → Option Reason
  | [] => none
  | c :: _ =>
    if c = '.' ∨ c = ',' ∨ c = '(' then none
    else if c = ')' then some .unmatchedParen
    else some .trailingText

/-- Reads a label whose opening parenthesis, at `start`, has been read. Parentheses do
not nest: the label ends at the next closing one. -/
def label (s : Scanner) (start : Nat) : Except Fault Chunk × Scanner :=
  let body := s.rest.takeWhile (· != ')')
  match s.rest.dropWhile (· != ')') with
  | [] => (.error ⟨start, .unclosedParen⟩, s.moved body.length [])
  | _ :: rest =>
    let next := s.moved (body.length + 1) rest
    if body = [] then (.error ⟨start, .emptyLabel⟩, next)
    else match faultAfterLabel rest with
      | some reason => (.error ⟨next.position, reason⟩, next)
      | none => (.ok ⟨.label, body, start⟩, next)

def nextChunk (s : Scanner) : Except Fault Chunk × Scanner :=
  if s.started then
    match s.rest with
    | '.' :: rest => (s.moved 1 rest).name .descend s.position
    | ',' :: rest => (s.moved 1 rest).name .sibling s.position
    | '(' :: rest => (s.moved 1 rest).label s.position
    | _ => (.error ⟨s.position, .trailingText⟩, s)
  else
    { s with started := true }.name .start s.position

@[simp] theorem moved_rest (s : Scanner) (n : Nat) (r : Text) : (s.moved n r).rest = r := rfl

@[simp] theorem moved_position (s : Scanner) (n : Nat) (r : Text) :
    (s.moved n r).position = s.position + n := rfl

@[simp] theorem name_rest (s : Scanner) (k : ChunkKind) (i : Nat) :
    (s.name k i).2.rest = s.rest.dropWhile isNameChar := by
  dsimp only [name]
  split
  · rfl
  · split <;> rfl

theorem length_rest_name_lt {s : Scanner} {k : ChunkKind} {i : Nat} {c : Chunk} {t : Scanner}
    (h : s.name k i = (.ok c, t)) : t.rest.length < s.rest.length := by
  have hrest := congrArg (·.2.rest) h
  simp only [name_rest] at hrest
  rw [← hrest]
  cases hs : s.rest.takeWhile isNameChar with
  | nil =>
    simp only [name, hs] at h
    split at h <;> simp at h
  | cons a as =>
    have hlen := congrArg List.length (List.takeWhile_append_dropWhile (p := isNameChar) (l := s.rest))
    rw [hs] at hlen
    simp only [List.length_append, List.length_cons] at hlen
    omega

theorem length_rest_label_le {s : Scanner} {i : Nat} {c : Chunk} {t : Scanner}
    (h : s.label i = (.ok c, t)) : t.rest.length ≤ s.rest.length := by
  have hle := (List.dropWhile_suffix (l := s.rest) (· != ')')).length_le
  simp only [label] at h
  split at h
  · simp at h
  · rename_i rest hd
    rw [hd, List.length_cons] at hle
    split at h
    · simp at h
    · split at h
      · simp at h
      · simp only [Prod.mk.injEq] at h
        rw [← h.2, moved_rest]
        omega

theorem length_rest_nextChunk_lt {s : Scanner} {c : Chunk} {t : Scanner}
    (h : s.nextChunk = (.ok c, t)) : t.rest.length < s.rest.length := by
  unfold nextChunk at h
  split at h
  · split at h
    · rename_i hr; have := length_rest_name_lt h; rw [hr, List.length_cons]; simp at this; omega
    · rename_i hr; have := length_rest_name_lt h; rw [hr, List.length_cons]; simp at this; omega
    · rename_i hr; have := length_rest_label_le h; rw [hr, List.length_cons]; simp at this; omega
    · simp at h
  · simpa using length_rest_name_lt h

/-- Reads chunks up to the next `.` outside parentheses or the end of the string. -/
def batch (s : Scanner) : Except Fault Batch × Scanner :=
  match h : s.nextChunk with
  | (.error fault, t) => (.error fault, t)
  | (.ok c, t) =>
    match t.rest with
    | [] => (.ok [c], { t with finished := true })
    | '.' :: _ => (.ok [c], t)
    | _ =>
      have := length_rest_nextChunk_lt h
      match t.batch with
      | (.error fault, u) => (.error fault, u)
      | (.ok cs, u) => (.ok (c :: cs), u)
termination_by s.rest.length

/-- The next batch, or `none` once a batch has ended at the end of the string. -/
def nextBatch (s : Scanner) : Except Fault (Option Batch) × Scanner :=
  if s.finished then (.ok none, s)
  else match s.batch with
    | (.error fault, t) => (.error fault, t)
    | (.ok b, t) => (.ok (some b), t)

theorem length_rest_batch_lt {s : Scanner} {b : Batch} {t : Scanner}
    (h : s.batch = (.ok b, t)) : t.rest.length < s.rest.length := by
  induction hn : s.rest.length using Nat.strongRecOn generalizing s b t with
  | ind n ih =>
    rw [batch] at h
    split at h
    · simp at h
    · rename_i c u hc
      have hlt := length_rest_nextChunk_lt hc
      split at h
      · rename_i hu
        simp only [Prod.mk.injEq] at h
        rw [← h.2, hu, ← hn]
        simpa [hu] using hlt
      · simp only [Prod.mk.injEq] at h
        rw [← h.2, ← hn]
        exact hlt
      · split at h
        · simp at h
        · rename_i cs v hv
          have := ih u.rest.length (by omega) hv rfl
          simp only [Prod.mk.injEq] at h
          rw [← h.2]
          omega

def batches (s : Scanner) : Except Fault (List Batch) :=
  if s.finished then .ok []
  else match h : s.batch with
    | (.error fault, _) => .error fault
    | (.ok b, t) =>
      have := length_rest_batch_lt h
      (t.batches).map (b :: ·)
termination_by s.rest.length

/-- The outcomes of the first `count` calls of `nextBatch`, faults included. -/
def steps (s : Scanner) : Nat → List (Except Fault (Option Batch))
  | 0 => []
  | n + 1 => s.nextBatch.1 :: s.nextBatch.2.steps n

end Scanner

def tokenize (spec : Text) : Except ParseError (List Batch) :=
  (Scanner.ofText spec).batches.mapError (·.inside spec)

end QueryShorthand
