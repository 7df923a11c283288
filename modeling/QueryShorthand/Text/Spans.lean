import Mathlib.Data.List.TakeWhile

/-! The longest stretch of one class at the front of a list. Where a list is written as
such a stretch and a rest that does not go on with it, the two parts are determined. -/

namespace QueryShorthand
set_option autoImplicit false

section
variable {α : Type} {p : α → Bool} {s t s' t' : List α}

/-- The class ends at the front of the list. -/
def Stops (p : α → Bool) (t : List α) : Prop := ∀ a ∈ t.head?, p a = false

@[simp] theorem stops_nil : Stops p [] := by simp [Stops]

@[simp] theorem stops_cons {a : α} : Stops p (a :: t) ↔ p a = false := by simp [Stops]

theorem forall_bne_of_not_mem [DecidableEq α] {b : α} (h : b ∉ s) : ∀ a ∈ s, (a != b) = true := by
  intro a ha
  apply bne_iff_ne.2
  intro he
  exact h (he ▸ ha)

theorem stops_dropWhile : Stops p (s.dropWhile p) := by
  intro a ha
  have h := List.head?_dropWhile_not p s
  rw [Option.mem_def] at ha
  rwa [ha] at h

theorem takeWhile_append_of_stops (hs : ∀ a ∈ s, p a) (ht : Stops p t) :
    (s ++ t).takeWhile p = s := by
  rw [List.takeWhile_append_of_pos hs]
  cases t with
  | nil => simp
  | cons a t => simp [stops_cons.1 ht]

theorem dropWhile_append_of_stops (hs : ∀ a ∈ s, p a) (ht : Stops p t) :
    (s ++ t).dropWhile p = t := by
  rw [List.dropWhile_append_of_pos hs]
  cases t with
  | nil => simp
  | cons a t => simp [stops_cons.1 ht]

theorem append_inj_of_stops (hs : ∀ a ∈ s, p a) (ht : Stops p t) (hs' : ∀ a ∈ s', p a)
    (ht' : Stops p t') (h : s ++ t = s' ++ t') : s = s' ∧ t = t' := by
  constructor
  · rw [← takeWhile_append_of_stops hs ht, h, takeWhile_append_of_stops hs' ht']
  · rw [← dropWhile_append_of_stops hs ht, h, dropWhile_append_of_stops hs' ht']

end

end QueryShorthand
