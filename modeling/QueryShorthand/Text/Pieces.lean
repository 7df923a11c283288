/-! Cutting a list at every occurrence of a separator. There is always at least one
piece, no piece holds the separator, and writing it back between the pieces gives the
list again. -/

namespace QueryShorthand
set_option autoImplicit false

/-- Text is a list of code points, so lengths and positions count code points. -/
abbrev Text := List Char

theorem intercalate_cons_eq {α : Type} (sep s : List α) (ps : List (List α)) :
    sep.intercalate (s :: ps) = s ++ ps.flatMap (sep ++ ·) := by
  induction ps generalizing s with
  | nil => simp
  | cons p ps ih => simp [List.intercalate_cons_cons, ih]

section
variable {α : Type} [DecidableEq α]

/-- The maximal separator-free stretches of a list, empty ones included. -/
def pieces (sep : α) (s : List α) : List (List α) :=
  s.foldr (fun a ps => if a = sep then [] :: ps else ps.modifyHead (a :: ·)) [[]]

@[simp] theorem pieces_nil (sep : α) : pieces sep [] = [[]] := rfl

theorem pieces_cons (sep a : α) (s : List α) :
    pieces sep (a :: s) =
      if a = sep then [] :: pieces sep s else (pieces sep s).modifyHead (a :: ·) := rfl

@[simp] theorem pieces_cons_self (sep : α) (s : List α) :
    pieces sep (sep :: s) = [] :: pieces sep s := by simp [pieces_cons]

theorem pieces_ne_nil (sep : α) (s : List α) : pieces sep s ≠ [] := by
  induction s with
  | nil => simp
  | cons a s ih =>
    rw [pieces_cons]
    split
    · simp
    · cases h : pieces sep s with
      | nil => exact absurd h ih
      | cons p ps => simp

theorem not_mem_of_mem_pieces {sep : α} {s p : List α} (hp : p ∈ pieces sep s) : sep ∉ p := by
  induction s generalizing p with
  | nil => simp_all
  | cons a s ih =>
    rw [pieces_cons] at hp
    split at hp
    · rcases List.mem_cons.mp hp with rfl | hp
      · simp
      · exact ih hp
    · rename_i ha
      cases hs : pieces sep s with
      | nil => exact absurd hs (pieces_ne_nil sep s)
      | cons q qs =>
        rw [hs] at hp ih
        rcases List.mem_cons.mp hp with rfl | hp
        · intro hmem
          rcases List.mem_cons.mp hmem with rfl | hmem
          · exact ha rfl
          · exact ih (by simp) hmem
        · exact ih (by simp [hp])

theorem mem_of_mem_pieces {sep a : α} {s p : List α} (hp : p ∈ pieces sep s) (ha : a ∈ p) :
    a ∈ s := by
  induction s generalizing p with
  | nil => simp_all
  | cons b s ih =>
    rw [pieces_cons] at hp
    split at hp
    · rcases List.mem_cons.mp hp with rfl | hp
      · cases ha
      · exact List.mem_cons_of_mem b (ih hp ha)
    · cases hs : pieces sep s with
      | nil => exact absurd hs (pieces_ne_nil sep s)
      | cons q qs =>
        rw [hs] at hp ih
        rcases List.mem_cons.mp hp with rfl | hp
        · rcases List.mem_cons.mp ha with rfl | ha
          · exact List.mem_cons_self
          · exact List.mem_cons_of_mem b (ih List.mem_cons_self ha)
        · exact List.mem_cons_of_mem b (ih (List.mem_cons_of_mem q hp) ha)

theorem pieces_of_not_mem {sep : α} {s : List α} (h : sep ∉ s) : pieces sep s = [s] := by
  induction s with
  | nil => rfl
  | cons a s ih =>
    simp only [List.mem_cons, not_or] at h
    rw [pieces_cons, if_neg (Ne.symm h.1), ih h.2]
    rfl

theorem pieces_append_of_not_mem {sep : α} {s : List α} (h : sep ∉ s) (t : List α) :
    pieces sep (s ++ t) = (pieces sep t).modifyHead (s ++ ·) := by
  induction s with
  | nil =>
    rw [List.nil_append]
    cases pieces sep t <;> rfl
  | cons a s ih =>
    simp only [List.mem_cons, not_or] at h
    rw [List.cons_append, pieces_cons, if_neg (Ne.symm h.1), ih h.2]
    cases pieces sep t <;> rfl

theorem pieces_append_sep (sep : α) (s t : List α) :
    pieces sep (s ++ sep :: t) = pieces sep s ++ pieces sep t := by
  induction s with
  | nil => simp
  | cons a s ih =>
    rw [List.cons_append, pieces_cons, pieces_cons, ih]
    split
    · simp
    · cases hs : pieces sep s with
      | nil => exact absurd hs (pieces_ne_nil sep s)
      | cons p ps => simp

theorem intercalate_pieces (sep : α) (s : List α) :
    [sep].intercalate (pieces sep s) = s := by
  induction s with
  | nil => rfl
  | cons a s ih =>
    cases hs : pieces sep s with
    | nil => exact absurd hs (pieces_ne_nil sep s)
    | cons p ps =>
      rw [hs] at ih
      rw [pieces_cons, hs]
      split
      · rename_i ha
        subst ha
        rw [← ih]
        rfl
      · rw [← ih]
        cases ps <;> rfl

theorem pieces_intercalate {sep : α} {ps : List (List α)} (hne : ps ≠ [])
    (hsep : ∀ p ∈ ps, sep ∉ p) : pieces sep ([sep].intercalate ps) = ps := by
  induction ps with
  | nil => exact absurd rfl hne
  | cons p ps ih =>
    have hp := pieces_of_not_mem (hsep p List.mem_cons_self)
    cases ps with
    | nil => rwa [List.intercalate_singleton]
    | cons q qs =>
      have hrest := ih (List.cons_ne_nil q qs) fun r hr => hsep r (List.mem_cons_of_mem p hr)
      rw [List.intercalate_cons_cons, List.append_assoc, List.singleton_append,
        pieces_append_sep, hp, hrest]
      rfl

end

end QueryShorthand
