import QueryShorthand.Text.Pieces

/-! The arguments of one field: a map that remembers the order in which its keys were
first written. -/

namespace QueryShorthand
set_option autoImplicit false

abbrev Filters := List (Text × Text)

namespace Filters

def keys (fs : Filters) : List Text := fs.map (·.1)

/-- Writes a value. A key that is already there keeps its place. -/
def put (key value : Text) : Filters → Filters
  | [] => [(key, value)]
  | (k, v) :: rest => if k = key then (k, value) :: rest else (k, v) :: put key value rest

@[simp] theorem keys_nil : keys [] = [] := rfl

@[simp] theorem keys_cons (e : Text × Text) (fs : Filters) : keys (e :: fs) = e.1 :: keys fs := rfl

theorem keys_put_of_mem {key : Text} {fs : Filters} (h : key ∈ keys fs) (value : Text) :
    keys (put key value fs) = keys fs := by
  induction fs with
  | nil => simp at h
  | cons e fs ih =>
    obtain ⟨k, v⟩ := e
    rw [put]
    split
    · rfl
    · rename_i hk
      rw [keys_cons, keys_cons, ih ((List.mem_cons.1 h).resolve_left (Ne.symm hk))]

theorem keys_put_of_not_mem {key : Text} {fs : Filters} (h : key ∉ keys fs) (value : Text) :
    keys (put key value fs) = keys fs ++ [key] := by
  induction fs with
  | nil => rfl
  | cons e fs ih =>
    obtain ⟨k, v⟩ := e
    rw [keys_cons, List.mem_cons, not_or] at h
    rw [put, if_neg (Ne.symm h.1), keys_cons, keys_cons, ih h.2]
    rfl

theorem nodup_keys_put {fs : Filters} (h : (keys fs).Nodup) (key value : Text) :
    (keys (put key value fs)).Nodup := by
  rcases Decidable.em (key ∈ keys fs) with hk | hk
  · rwa [keys_put_of_mem hk]
  · rw [keys_put_of_not_mem hk]
    exact List.nodup_append.2 ⟨h, by simp, fun a ha b hb hab => hk (by simp_all)⟩

end Filters

end QueryShorthand
