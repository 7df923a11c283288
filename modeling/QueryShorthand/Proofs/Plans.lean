import Mathlib.Data.List.Forall2
import QueryShorthand.Plan

/-! When a shorthand string can be read: the scan succeeds and each of its chunks is a step.
The tree has no part in this. -/

namespace QueryShorthand
set_option autoImplicit false

theorem mapM_eq_ok_iff {ε α β : Type} {f : α → Except ε β} {xs : List α} {ys : List β} :
    xs.mapM f = .ok ys ↔ List.Forall₂ (fun x y => f x = .ok y) xs ys := by
  induction xs generalizing ys with
  | nil =>
    rw [List.mapM_nil, List.forall₂_nil_left_iff]
    exact ⟨fun h => (Except.ok.inj h).symm, fun h => h ▸ rfl⟩
  | cons x xs ih =>
    rw [List.mapM_cons, List.forall₂_cons_left_iff]
    cases hx : f x with
    | error e =>
      constructor
      · intro h
        cases h
      · intro h
        obtain ⟨y, ys', hy, -, -⟩ := h
        cases hy
    | ok y =>
      cases hxs : xs.mapM f with
      | error e =>
        constructor
        · intro h
          cases h
        · intro h
          obtain ⟨y', ys', -, hys, -⟩ := h
          rw [ih.2 hys] at hxs
          cases hxs
      | ok ys' =>
        constructor
        · intro h
          exact ⟨y, ys', rfl, ih.1 hxs, (Except.ok.inj h).symm⟩
        · intro h
          obtain ⟨y', ys'', hy, hys, rfl⟩ := h
          cases hy
          rw [ih.2 hys] at hxs
          cases hxs
          rfl

/-- The error of a traversal is that of the first element that has one. -/
theorem mapM_eq_error_iff {ε α β : Type} {f : α → Except ε β} {xs : List α} {e : ε} :
    xs.mapM f = .error e ↔ ∃ before x behind, xs = before ++ x :: behind ∧
      (∀ y ∈ before, ∃ z, f y = .ok z) ∧ f x = .error e := by
  induction xs with
  | nil =>
    rw [List.mapM_nil]
    constructor
    · intro h
      cases h
    · rintro ⟨before, x, behind, he, -⟩
      simp at he
  | cons x xs ih =>
    rw [List.mapM_cons]
    cases hx : f x with
    | error e' =>
      constructor
      · intro h
        cases h
        exact ⟨[], x, xs, rfl, by simp, hx⟩
      · rintro ⟨before, x', behind, he, hbefore, hx'⟩
        cases before with
        | nil =>
          cases he
          exact congrArg _ (Except.error.inj (hx.symm.trans hx'))
        | cons y before =>
          cases he
          obtain ⟨z, hz⟩ := hbefore x List.mem_cons_self
          rw [hx] at hz
          cases hz
    | ok y =>
      have hrest : (do let ys ← xs.mapM f; pure (y :: ys)) = Except.error e ↔
          xs.mapM f = .error e := by
        cases xs.mapM f <;> simp [bind, Except.bind, pure, Except.pure]
      change (do let ys ← xs.mapM f; pure (y :: ys)) = Except.error e ↔ _
      rw [hrest, ih]
      constructor
      · rintro ⟨before, x', behind, rfl, hbefore, hx'⟩
        exact ⟨x :: before, x', behind, rfl, List.forall_mem_cons.2 ⟨⟨y, hx⟩, hbefore⟩, hx'⟩
      · rintro ⟨before, x', behind, he, hbefore, hx'⟩
        cases before with
        | nil =>
          cases he
          rw [hx] at hx'
          cases hx'
        | cons x'' before =>
          cases he
          exact ⟨before, x', behind, rfl, (List.forall_mem_cons.1 hbefore).2, hx'⟩

theorem mapM_flatten {ε α β : Type} (f : α → Except ε β) (xss : List (List α)) :
    xss.flatten.mapM f = (xss.mapM (List.mapM f)).map List.flatten := by
  induction xss with
  | nil => rw [List.flatten_nil, List.mapM_nil, List.mapM_nil]; rfl
  | cons xs xss ih =>
    rw [List.flatten_cons, List.mapM_append, List.mapM_cons, ih]
    cases xs.mapM f with
    | error e => simp [bind, Except.bind, Except.map]
    | ok ys => cases xss.mapM (List.mapM f) <;> simp [bind, Except.bind, Except.map, pure, Except.pure]

theorem mapM_mapM_eq_error_iff {ε α β : Type} {f : α → Except ε β} {xss : List (List α)} {e : ε} :
    xss.mapM (List.mapM f) = .error e ↔ ∃ before x behind, xss.flatten = before ++ x :: behind ∧
      (∀ y ∈ before, ∃ z, f y = .ok z) ∧ f x = .error e := by
  rw [← mapM_eq_error_iff, mapM_flatten]
  cases xss.mapM (List.mapM f) <;> simp [Except.map]

theorem mapError_eq_ok_iff {ε ε' α : Type} {f : ε → ε'} {r : Except ε α} {a : α} :
    r.mapError f = .ok a ↔ r = .ok a := by
  cases r <;> simp [Except.mapError]

theorem Chunk.exists_label_of_step {c : Chunk} {step : Step} (hkind : c.kind = .label)
    (hstep : c.step = .ok step) :
    ∃ label, Label.ofText c.text = .ok label ∧ step = .mark label := by
  unfold Chunk.step at hstep
  rw [hkind] at hstep
  dsimp only at hstep
  split at hstep
  · rename_i label hlabel
    exact ⟨label, hlabel, (Except.ok.inj hstep).symm⟩
  · cases hstep

/-- The step of a chunk that is a name goes to a field of that name, below the field where the
batch began or below the current one. -/
theorem Chunk.follow_of_name {c : Chunk} {step : Step} (hkind : c.kind ≠ .label)
    (hstep : c.step = .ok step) (base : Nat) (here : Tree × Nat) :
    Tree.follow base here step =
      here.1.resolve (if c.kind = .sibling then base else here.2) c.text := by
  unfold Chunk.step at hstep
  cases hk : c.kind with
  | start =>
    simp only [hk, Except.ok.injEq] at hstep
    exact hstep ▸ rfl
  | descend =>
    simp only [hk, Except.ok.injEq] at hstep
    exact hstep ▸ rfl
  | sibling =>
    simp only [hk, Except.ok.injEq] at hstep
    exact hstep ▸ rfl
  | label => exact absurd hk hkind

abbrev Batch.Planned (b : Batch) (steps : List Step) : Prop :=
  List.Forall₂ (fun c step => c.step = .ok step) b steps

theorem Plan.ofSpec_eq_ok_iff {spec : Text} {plan : Plan} :
    Plan.ofSpec spec = .ok plan ↔
      ∃ bs, tokenize spec = .ok bs ∧ List.Forall₂ Batch.Planned bs plan := by
  have hbatch (b : Batch) (steps : List Step) :
      List.mapM Chunk.step b = .ok steps ↔ b.Planned steps :=
    mapM_eq_ok_iff
  unfold Plan.ofSpec
  cases htok : tokenize spec with
  | error e =>
    constructor
    · intro h
      cases h
    · intro h
      obtain ⟨bs, hbs, -⟩ := h
      cases hbs
  | ok bs =>
    change Except.mapError _ _ = _ ↔ _
    rw [mapError_eq_ok_iff, mapM_eq_ok_iff]
    simp only [hbatch, Except.ok.injEq, exists_eq_left']

namespace Tree
variable {t : Tree} {spec : Text}

theorem parseField_eq_ok_iff {here : Tree × Nat} :
    t.parseField spec = .ok here ↔ ∃ plan, Plan.ofSpec spec = .ok plan ∧ t.apply plan = here := by
  unfold parseField
  cases Plan.ofSpec spec <;> simp [Except.map]

theorem parseField_eq_error_iff {e : ParseError} :
    t.parseField spec = .error e ↔ Plan.ofSpec spec = .error e := by
  unfold parseField
  cases Plan.ofSpec spec <;> simp [Except.map]

/-- A string that one tree can be given can be given to any. -/
theorem exists_parseField (h : ∃ here, t.parseField spec = .ok here) (u : Tree) :
    ∃ here, u.parseField spec = .ok here := by
  obtain ⟨here, hspec⟩ := h
  obtain ⟨plan, hplan, -⟩ := parseField_eq_ok_iff.1 hspec
  exact ⟨u.apply plan, parseField_eq_ok_iff.2 ⟨plan, hplan, rfl⟩⟩

theorem readable_of_isOk {specs : List Text} (h : ∀ spec ∈ specs, (t.parseField spec).isOk) :
    ∀ spec ∈ specs, ∃ here, t.parseField spec = .ok here := by
  intro spec hspec
  cases hp : t.parseField spec with
  | error e => simpa [hp, Except.isOk, Except.toBool] using h spec hspec
  | ok here => exact ⟨here, rfl⟩

end Tree

end QueryShorthand
