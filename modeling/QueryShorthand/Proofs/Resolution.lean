import QueryShorthand.Proofs.Growth

/-! What following a path downwards does. As long as the names lead to fields nothing happens;
from the first that does not, every name is a new field below the one before it, since a new
field has no children to be found. So the tree ends in a chain that hangs below the deepest
field that was there, and nothing else has changed. -/

namespace QueryShorthand.Tree
set_option autoImplicit false

/-- Where names lead that are all there: no name at all leads to the node itself. -/
def find? (t : Tree) (id : Nat) (names : Path) : Option Nat :=
  if names = [] then some id else t.lookup id (['.'].intercalate names)

/-- The longest run of leading names that leads anywhere, the node it leads to, and the names
behind it. -/
structure LongestRun (t : Tree) (id : Nat) (names found : Path) (deepest : Nat) (missing : Path) :
    Prop where
  names_eq : names = found ++ missing
  leads : t.find? id found = some deepest
  longest : ∀ run, run <+: names → t.find? id run ≠ none → run.length ≤ found.length

/-- The node at index `i` in a chain of fields without labels, the first of which stands at
index `next` below `parent`. -/
def chainNode (parent next : Nat) (names : Path) (i : Nat) : Option Node :=
  names[i - next]?.map fun s =>
    { name := some s
      aliasName := none
      filters := []
      children := if i + 1 < next + names.length then [i + 1] else []
      parent := some (if i = next then parent else i - 1) }

theorem foldlM_child_append {t : Tree} {id deepest : Nat} {found : Path}
    (h : found.foldlM t.child id = some deepest) (names : Path) :
    (found ++ names).foldlM t.child id = names.foldlM t.child deepest := by
  rw [List.foldlM_append, h]
  rfl

theorem find?_eq_foldlM {t : Tree} {id : Nat} {names : Path} (hdot : ∀ s ∈ names, '.' ∉ s) :
    t.find? id names = names.foldlM t.child id := by
  rw [find?]
  split
  · rename_i hnil
    rw [hnil]
    rfl
  · rename_i hne
    rw [lookup, pieces_intercalate hne hdot]

/-! The names that are found -/

theorem exists_stuck (t : Tree) (id : Nat) (names : Path) :
    ∃ found deepest missing, names = found ++ missing ∧ found.foldlM t.child id = some deepest ∧
      ∀ s ∈ missing.head?, t.child deepest s = none := by
  induction names generalizing id with
  | nil => exact ⟨[], id, [], rfl, rfl, by simp⟩
  | cons s names ih =>
    cases hs : t.child id s with
    | none => exact ⟨[], id, s :: names, rfl, rfl, by simpa using hs⟩
    | some c =>
      obtain ⟨found, deepest, missing, rfl, hfound, hstuck⟩ := ih c
      refine ⟨s :: found, deepest, missing, rfl, ?_, hstuck⟩
      rw [List.foldlM_cons, hs]
      exact hfound

section
variable {t : Tree} {id deepest : Nat} {names found missing : Path} (hdot : ∀ s ∈ names, '.' ∉ s)
include hdot

theorem find?_of_run {run : Path} (h : run <+: names) :
    t.find? id run = run.foldlM t.child id :=
  find?_eq_foldlM fun s hs => hdot s (h.subset hs)

/-- A run that goes on where there is no child leads nowhere. -/
theorem longestRun_of_stuck (hnames : names = found ++ missing)
    (hfound : found.foldlM t.child id = some deepest)
    (hstuck : ∀ s ∈ missing.head?, t.child deepest s = none) :
    t.LongestRun id names found deepest missing := by
  have hprefix : found <+: names := ⟨missing, hnames.symm⟩
  refine ⟨hnames, (find?_of_run hdot hprefix).trans hfound, fun run hrun hleads => ?_⟩
  by_contra hlt
  apply hleads
  rw [find?_of_run hdot hrun]
  obtain ⟨rest, rfl⟩ := List.prefix_of_prefix_length_le hprefix hrun (Nat.le_of_not_le hlt)
  rw [hnames, List.prefix_append_right_inj] at hrun
  cases rest with
  | nil => simp at hlt
  | cons s rest =>
    obtain ⟨behind, rfl⟩ := hrun
    rw [foldlM_child_append hfound, List.foldlM_cons, hstuck s rfl]
    rfl

end

/-! Going down name by name -/

/-- `resolve` on names that have been cut already. -/
def enterAll (t : Tree) (id : Nat) (names : Path) : Tree × Nat :=
  names.foldl (fun (t, id) name => t.enter id name) (t, id)

theorem resolve_eq_enterAll (t : Tree) (id : Nat) (path : Text) :
    t.resolve id path = t.enterAll id (pieces '.' path) := rfl

theorem enterAll_cons (t : Tree) (id : Nat) (s : Text) (names : Path) :
    t.enterAll id (s :: names) = (t.enter id s).1.enterAll (t.enter id s).2 names := rfl

theorem enterAll_append (t : Tree) (id : Nat) (names names' : Path) :
    t.enterAll id (names ++ names') =
      (t.enterAll id names).1.enterAll (t.enterAll id names).2 names' :=
  List.foldl_append

theorem resolve_append (t : Tree) (id : Nat) (p q : Text) :
    t.resolve id (p ++ '.' :: q) = (t.resolve id p).1.resolve (t.resolve id p).2 q := by
  simp only [resolve_eq_enterAll, pieces_append_sep, enterAll_append]

theorem enterAll_of_foldlM {t : Tree} {id i : Nat} {names : Path}
    (h : names.foldlM t.child id = some i) : t.enterAll id names = (t, i) := by
  induction names generalizing id with
  | nil => exact congrArg (t, ·) (Option.some.inj h)
  | cons s names ih =>
    rw [List.foldlM_cons] at h
    obtain ⟨c, hc, hrest⟩ := Option.bind_eq_some_iff.1 h
    rw [enterAll_cons, enter, hc]
    exact ih hrest

/-- Adds a field for each name, each below the one before it. -/
def pushAll (t : Tree) (id : Nat) : Path → Tree
  | [] => t
  | s :: names => (t.push id s).pushAll t.size names

theorem child_push_size {t : Tree} {id : Nat} (h : id < t.size) (s s' : Text) :
    (t.push id s).child t.size s' = none := by
  have hne : t.size ≠ id := Nat.ne_of_gt h
  have hnode : t.node? t.size = none := node?_eq_none.2 (Nat.le_refl _)
  rw [child, children_push h, if_neg hne, children, hnode]
  rfl

/-- A new field has no child, so the names behind the first that is missing are missing too. -/
theorem enterAll_of_stuck {t : Tree} {id : Nat} (h : id < t.size) {names : Path}
    (hstuck : ∀ s ∈ names.head?, t.child id s = none) :
    t.enterAll id names =
      (t.pushAll id names, if names = [] then id else t.size + names.length - 1) := by
  induction names generalizing t id with
  | nil => rfl
  | cons s names ih =>
    have hlt : t.size < (t.push id s).size := by simp
    rw [enterAll_cons, enter, hstuck s rfl, ih hlt fun s' _ => child_push_size h s s', pushAll]
    cases names with
    | nil => simp
    | cons s' names =>
      simp only [size_push, reduceCtorEq, if_false, List.length_cons]
      congr 1
      omega

theorem size_pushAll (t : Tree) (id : Nat) (names : Path) :
    (t.pushAll id names).size = t.size + names.length := by
  induction names generalizing t id with
  | nil => rfl
  | cons s names ih =>
    rw [pushAll, ih, size_push, List.length_cons]
    omega

/-- The old nodes, of which one has got a child, and the chain behind them. -/
theorem node?_pushAll {t : Tree} {id : Nat} (h : id < t.size) (names : Path) (i : Nat) :
    (t.pushAll id names).node? i =
      if i < t.size then
        if i = id ∧ names ≠ [] then (t.node? i).map (Node.addChild t.size) else t.node? i
      else chainNode id t.size names i := by
  induction names generalizing t id with
  | nil =>
    rw [pushAll]
    split
    · simp
    · rename_i hi
      exact node?_eq_none.2 (Nat.le_of_not_lt hi)
  | cons s names ih =>
    rw [pushAll, ih (by simp), size_push, node?_push h]
    rcases Nat.lt_trichotomy i t.size with hi | rfl | hi
    · have hne : i ≠ t.size := Nat.ne_of_lt hi
      simp [hi, hne, Nat.lt_succ_of_lt hi, eq_comm (a := id)]
    · cases names <;> simp [chainNode, Node.field, Node.root, Node.addChild]
    · have hsub : i - t.size = i - (t.size + 1) + 1 := by omega
      have hparent : (if i = t.size + 1 then t.size else i - 1) = i - 1 := by
        split
        · omega
        · rfl
      have hlength : t.size + 1 + names.length = t.size + (names.length + 1) := by omega
      rw [if_neg (by omega), if_neg (by omega), chainNode, chainNode, hsub, hparent,
        List.getElem?_cons_succ, if_neg (Nat.ne_of_gt hi), List.length_cons, hlength]

theorem WellFormed.lookup_resolve {t : Tree} (h : t.WellFormed) {id : Nat} (hid : id < t.size)
    (path : Text) : (t.resolve id path).1.lookup id path = some (t.resolve id path).2 := by
  have hgrows := h.grows_resolve hid path
  have hid' := Nat.lt_of_lt_of_le hid hgrows.size_le
  have harrived := hgrows.arrived
  rw [← hgrows.path id hid] at harrived
  have hclimbs := hgrows.wellFormed.climbs_of_path hgrows.lt_size hid' harrived
  exact hgrows.wellFormed.foldlM_child_eq_some_iff.2 hclimbs

/-- Resolving a path appends one chain of nodes, with the names that were missing, below the
deepest node that the path led to before, and changes nothing else. Only paths that end in the
chain are found that were not found before. A path may be resolved in two parts. -/
theorem Reachable.resolve_effect {t : Tree} (h : Reachable t) {id : Nat} (hid : id < t.size)
    (path : Text) :
    ∃ found deepest missing, t.LongestRun id (pieces '.' path) found deepest missing ∧
      ∃ u m, t.resolve id path = (u, m) ∧ u.lookup id path = some m ∧
        m = (if missing = [] then deepest else t.size + missing.length - 1) ∧
        u.size = t.size + missing.length ∧
        (∀ i, t.size ≤ i → u.node? i = chainNode deepest t.size missing i) ∧
        (∀ i, i < t.size → u.node? i =
          if i = deepest ∧ missing ≠ [] then (t.node? i).map (Node.addChild t.size) else t.node? i) ∧
        (missing = [] → u = t ∧ t.lookup id path = some m) ∧
        (∀ i, i < t.size → ∀ q, t.lookup i q = none ∧ u.lookup i q ≠ none ↔
          ∃ c, t.size ≤ c ∧ u.lookup i q = some c) ∧
        ∀ q, u.resolve m q = t.resolve id (path ++ '.' :: q) := by
  have hw := h.wellFormed
  have hdot : ∀ s ∈ pieces '.' path, '.' ∉ s := fun s => not_mem_of_mem_pieces
  obtain ⟨found, deepest, missing, hnames, hfound, hstuck⟩ := exists_stuck t id (pieces '.' path)
  have hdeepest : deepest < t.size := (hw.foldlM_child_eq_some_iff.1 hfound).lt_size hid
  have hresolve : t.resolve id path =
      (t.pushAll deepest missing,
        if missing = [] then deepest else t.size + missing.length - 1) := by
    rw [resolve_eq_enterAll, hnames, enterAll_append, enterAll_of_foldlM hfound]
    exact enterAll_of_stuck hdeepest hstuck
  have hlookup := hw.lookup_resolve hid path
  have hextends := (leadsTo_resolve hid path).1.extends
  have hwu := (hw.grows_resolve hid path).wellFormed
  have happend := resolve_append t id path
  rw [hresolve] at hlookup hextends hwu happend
  refine ⟨found, deepest, missing, longestRun_of_stuck hdot hnames hfound hstuck, _, _, hresolve,
    hlookup, rfl, size_pushAll t deepest missing, fun i hi => ?_, fun i hi => ?_, ?_,
    fun i hi => hextends.newly_found_iff hw hwu hi, fun q => (happend q).symm⟩
  · rw [node?_pushAll hdeepest, if_neg (Nat.not_lt.2 hi)]
  · rw [node?_pushAll hdeepest, if_pos hi]
  · rintro rfl
    exact ⟨rfl, hlookup⟩

def shallow : Tree := Tree.empty.after (.parseField "a.b(k:1)".toList)

/-- One name is found below `a`, an empty one and a known one are missing below that. -/
theorem Reachable.resolve_effect_shallow :
    Reachable shallow ∧ 1 < shallow.size ∧
      ∃ found deepest missing, missing.length = 2 ∧
        shallow.LongestRun 1 (pieces '.' "b..b".toList) found deepest missing ∧
        ∃ u, shallow.resolve 1 "b..b".toList = (u, 4) ∧ u.size = 5 ∧
          u.node? 4 = chainNode deepest shallow.size missing 4 ∧
          u.resolve 4 "c".toList = shallow.resolve 1 "b..b.c".toList := by
  have h : Reachable shallow := .after .empty _ trivial
  have hsize : shallow.size = 3 := by decide +kernel
  have hlt : 1 < shallow.size := by omega
  have hgrown : (shallow.resolve 1 "b..b".toList).1.size = 5 := by decide +kernel
  obtain ⟨found, deepest, missing, hrun, u, m, hresolve, -, hm, hu, hchain, -, -, -, happend⟩ :=
    h.resolve_effect hlt "b..b".toList
  simp only [hresolve] at hgrown
  have hlength : missing.length = 2 := by omega
  have hne : missing ≠ [] := List.ne_nil_of_length_pos (by omega)
  obtain rfl : m = 4 := by
    rw [hm, if_neg hne]
    omega
  exact ⟨h, hlt, found, deepest, missing, hlength, hrun, u, hresolve, hgrown,
    hchain 4 (by omega), happend _⟩

end QueryShorthand.Tree
