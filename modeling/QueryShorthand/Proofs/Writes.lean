import Mathlib.Data.List.Induction
import QueryShorthand.Tree.Filters

/-! The filters that a sequence of writes leaves behind: the keys in the order of their
first write, each with the value of its last write. -/

namespace QueryShorthand.Filters
set_option autoImplicit false

def ofWrites (ws : List (Text × Text)) : Filters := ws.foldl (fun fs w => fs.put w.1 w.2) []

/-- The value that is written last under a key. -/
def lastWrite (ws : List (Text × Text)) (key : Text) : Option Text :=
  ((ws.filter fun w => w.1 = key).getLast?).map Prod.snd

/-- What writes make of filters that are there already. -/
def putAll (fs : Filters) (ws : List (Text × Text)) : Filters :=
  ws.foldl (fun fs w => fs.put w.1 w.2) fs

theorem lastWrite_concat (ws : List (Text × Text)) (w : Text × Text) (key : Text) :
    lastWrite (ws ++ [w]) key = if w.1 = key then some w.2 else lastWrite ws key := by
  unfold lastWrite
  rw [List.filter_append]
  split
  · rename_i hw
    simp [hw]
  · rename_i hw
    simp [hw]

theorem putAll_append (fs : Filters) (ws ws' : List (Text × Text)) :
    fs.putAll (ws ++ ws') = (fs.putAll ws).putAll ws' :=
  List.foldl_append

theorem putAll_concat (fs : Filters) (ws : List (Text × Text)) (w : Text × Text) :
    fs.putAll (ws ++ [w]) = (fs.putAll ws).put w.1 w.2 :=
  putAll_append fs ws [w]

theorem lookup_cons_eq (key value : Text) (fs : Filters) (k : Text) :
    List.lookup k ((key, value) :: fs) = if key = k then some value else List.lookup k fs := by
  rw [List.lookup_cons]
  split
  · rename_i h
    rw [if_pos (eq_of_beq h).symm]
  · rename_i h
    rw [if_neg fun he => by simp [he] at h]

theorem lookup_put (key value : Text) (fs : Filters) (k : Text) :
    List.lookup k (put key value fs) = if key = k then some value else List.lookup k fs := by
  induction fs with
  | nil => exact lookup_cons_eq key value [] k
  | cons e fs ih =>
    obtain ⟨key', value'⟩ := e
    rw [put]
    split
    · rename_i hkey
      rw [lookup_cons_eq, lookup_cons_eq, hkey]
      split <;> rfl
    · rename_i hkey
      rw [lookup_cons_eq, lookup_cons_eq, ih]
      split
      · rename_i hk
        rw [if_neg fun he => hkey (hk.trans he.symm)]
      · rfl

theorem lookup_putAll (fs : Filters) (ws : List (Text × Text)) (k : Text) :
    List.lookup k (fs.putAll ws) = (lastWrite ws k).or (List.lookup k fs) := by
  induction ws using List.reverseRecOn with
  | nil => rfl
  | append_singleton ws w ih =>
    rw [putAll_concat, lookup_put, lastWrite_concat, ih]
    split <;> rfl

theorem mem_keys_putAll {fs : Filters} {ws : List (Text × Text)} {k : Text} :
    k ∈ keys (fs.putAll ws) ↔ k ∈ keys fs ∨ k ∈ ws.map Prod.fst := by
  induction ws using List.reverseRecOn with
  | nil => simp [putAll]
  | append_singleton ws w ih =>
    rw [putAll_concat, List.map_append, List.mem_append, ← or_assoc, ← ih]
    by_cases hw : w.1 ∈ keys (fs.putAll ws)
    · rw [keys_put_of_mem hw]
      simp +contextual [hw]
    · rw [keys_put_of_not_mem hw]
      simp

theorem keys_putAll_of_mem {fs : Filters} {ws : List (Text × Text)}
    (h : ∀ w ∈ ws, w.1 ∈ keys fs) : keys (fs.putAll ws) = keys fs := by
  induction ws using List.reverseRecOn with
  | nil => rfl
  | append_singleton ws w ih =>
    obtain ⟨hws, hw⟩ := List.forall_mem_append.1 h
    rw [putAll_concat, keys_put_of_mem ?_, ih hws]
    exact ih hws ▸ hw w List.mem_cons_self

theorem nodup_keys_putAll {fs : Filters} (h : (keys fs).Nodup) (ws : List (Text × Text)) :
    (keys (fs.putAll ws)).Nodup := by
  induction ws using List.reverseRecOn with
  | nil => exact h
  | append_singleton ws w ih => exact putAll_concat fs ws w ▸ nodup_keys_put ih w.1 w.2

theorem mem_iff_lookup {fs : Filters} (h : (keys fs).Nodup) {e : Text × Text} :
    e ∈ fs ↔ List.lookup e.1 fs = some e.2 := by
  induction fs with
  | nil => simp
  | cons f fs ih =>
    obtain ⟨key, value⟩ := f
    obtain ⟨hkey, hrest⟩ := List.nodup_cons.1 h
    rw [lookup_cons_eq, List.mem_cons]
    split
    · rename_i he
      subst he
      have hnot : e ∉ fs := fun hmem => hkey (List.mem_map.2 ⟨e, hmem, rfl⟩)
      simp [hnot, Prod.ext_iff, eq_comm]
    · rename_i hne
      rw [← ih hrest]
      exact or_iff_right fun he => hne (congrArg Prod.fst he).symm

theorem eq_map_lookup {fs : Filters} (h : (keys fs).Nodup) :
    fs = (keys fs).map fun k => (k, (List.lookup k fs).getD []) := by
  rw [keys, List.map_map]
  refine (List.map_id fs).symm.trans (List.map_congr_left fun e he => ?_)
  simp [(mem_iff_lookup h).1 he]

/-- Filters are determined by their keys in order and by what is found under them. -/
theorem ext_lookup {fs gs : Filters} (h : (keys fs).Nodup) (hkeys : keys fs = keys gs)
    (hlookup : ∀ k, List.lookup k fs = List.lookup k gs) : fs = gs := by
  calc
    fs = (keys fs).map fun k => (k, (List.lookup k fs).getD []) := eq_map_lookup h
    _ = (keys gs).map fun k => (k, (List.lookup k gs).getD []) := by simp only [hkeys, hlookup]
    _ = gs := (eq_map_lookup (hkeys ▸ h)).symm

/-- Writing once more what was written last changes nothing, whatever came in between. -/
theorem putAll_putAll {fs : Filters} (h : (keys fs).Nodup) (ws : List (Text × Text)) :
    (fs.putAll ws).putAll ws = fs.putAll ws := by
  have hkeys : ∀ w ∈ ws, w.1 ∈ keys (fs.putAll ws) := by
    intro w hw
    exact mem_keys_putAll.2 (.inr (List.mem_map.2 ⟨w, hw, rfl⟩))
  apply ext_lookup
  · exact nodup_keys_putAll (nodup_keys_putAll h ws) ws
  · exact keys_putAll_of_mem hkeys
  · intro k
    rw [lookup_putAll, lookup_putAll]
    cases lastWrite ws k <;> rfl

/-! Writes into nothing -/

theorem ofWrites_concat (ws : List (Text × Text)) (w : Text × Text) :
    ofWrites (ws ++ [w]) = (ofWrites ws).put w.1 w.2 :=
  putAll_concat [] ws w

theorem keys_ofWrites (ws : List (Text × Text)) :
    keys (ofWrites ws) = (ws.map Prod.fst).eraseDups := by
  induction ws using List.reverseRecOn with
  | nil => rfl
  | append_singleton ws w ih =>
    have hmem : w.1 ∈ keys (ofWrites ws) ↔ w.1 ∈ ws.map Prod.fst := by rw [ih, List.mem_eraseDups]
    rw [ofWrites_concat, List.map_append, List.eraseDups_append, List.map_singleton]
    by_cases hw : w.1 ∈ keys (ofWrites ws)
    · rw [keys_put_of_mem hw, ih]
      have hdrop : [w.1].removeAll (ws.map Prod.fst) = [] := by
        simpa [List.removeAll] using hmem.1 hw
      simp [hdrop]
    · rw [keys_put_of_not_mem hw, ih]
      have hkeep : [w.1].removeAll (ws.map Prod.fst) = [w.1] := by
        simpa [List.removeAll] using mt hmem.2 hw
      simp [hkeep, List.eraseDups_cons]

theorem nodup_keys_ofWrites (ws : List (Text × Text)) : (keys (ofWrites ws)).Nodup := by
  have hnil : (keys []).Nodup := .nil
  exact nodup_keys_putAll hnil ws

theorem lookup_ofWrites (ws : List (Text × Text)) (k : Text) :
    List.lookup k (ofWrites ws) = lastWrite ws k := by
  refine (lookup_putAll [] ws k).trans ?_
  cases lastWrite ws k <;> rfl

theorem last_of_mem_ofWrites {ws : List (Text × Text)} {e : Text × Text} (he : e ∈ ofWrites ws) :
    (ws.filter fun w => w.1 = e.1).getLast? = some e := by
  have hlast := (mem_iff_lookup (nodup_keys_ofWrites ws)).1 he
  rw [lookup_ofWrites] at hlast
  obtain ⟨w, hw, hvalue⟩ := Option.map_eq_some_iff.1 hlast
  have hkey := (List.mem_filter.1 (List.mem_of_getLast? hw)).2
  rw [hw, Prod.ext (of_decide_eq_true hkey) hvalue]

end QueryShorthand.Filters
