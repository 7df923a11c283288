import Mathlib.Algebra.GroupWithZero.Nat
import QueryShorthand.Proofs.Paths
import QueryShorthand.Proofs.Unambiguous

/-! What the printer does at a node: it writes what the node itself holds and goes through the
children in order, each inside the braces of its parent. Every node is come to once, so nothing
is lost or doubled, and the length of a document can be told from the nodes. -/

namespace QueryShorthand
set_option autoImplicit false

theorem length_braced (texts : List Text) :
    (braced texts).length =
      (texts.map List.length).sum + if texts = [] then 0 else texts.length + 1 := by
  have hothers (others : List Text) :
      (others.flatMap (',' :: ·)).length = (others.map List.length).sum + others.length := by
    induction others with
    | nil => rfl
    | cons text others ih =>
      simp only [List.flatMap_cons, List.length_append, List.length_cons, List.map_cons,
        List.sum_cons, ih]
      omega
  cases texts with
  | nil => rfl
  | cons first others =>
    simp only [braced, List.length_cons, List.length_append, hothers, List.map_cons, List.sum_cons,
      List.length_nil, reduceCtorEq, if_false]
    omega

theorem infix_braced {text : Text} {texts : List Text} (h : text ∈ texts) :
    text <:+: braced texts := by
  cases texts with
  | nil => cases h
  | cons first others =>
    rcases List.mem_cons.1 h with rfl | h
    · exact ⟨['{'], _, rfl⟩
    · obtain ⟨before, behind, rfl⟩ := List.append_of_mem h
      refine ⟨'{' :: (first ++ (before.flatMap (',' :: ·) ++ [','])),
        behind.flatMap (',' :: ·) ++ ['}'], ?_⟩
      simp [braced]

namespace Filters

/-- A filter as it stands in a document. -/
def entryText (e : Text × Text) : Text := e.1 ++ ":\"".toList ++ e.2 ++ ['"']

/-- The filters of a node as they stand in a document. -/
def block (sep : Text) (filters : Filters) : Text :=
  if filters = [] then [] else '(' :: (sep.intercalate (filters.map entryText) ++ [')'])

theorem arguments_eq_block (sep : Text) (filters : Filters) :
    Selection.arguments sep filters = filters.block sep := by
  cases filters with
  | nil => rfl
  | cons e fs => exact (if_neg (List.cons_ne_nil e fs)).symm

end Filters

namespace Selection

theorem block_eq_braced (sep : Text) (cs : List Selection) :
    block sep cs = braced (cs.map (text sep)) := by
  have hbehind (cs : List Selection) :
      textBehind sep cs = (cs.map (text sep)).flatMap (',' :: ·) ++ ['}'] := by
    induction cs with
    | nil => rfl
    | cons c cs ih => simp [textBehind, ih]
  cases cs with
  | nil => rfl
  | cons c cs => rw [block, hbehind, List.map_cons, braced]

theorem length_arguments (filters : Filters) :
    (arguments [] filters).length =
      (filters.map fun e => e.1.length + e.2.length + 3).sum +
        if filters = [] then 0 else 2 := by
  have hargument (e : Text × Text) : (argument e).length = e.1.length + e.2.length + 3 := by
    simp [argument]
    omega
  have hbehind (fs : Filters) : (fs.flatMap fun f => [] ++ argument f).length =
      (fs.map fun e => e.1.length + e.2.length + 3).sum := by
    induction fs with
    | nil => rfl
    | cons e fs ih =>
      rw [List.flatMap_cons, List.length_append, ih, List.map_cons, List.sum_cons, List.nil_append,
        hargument]
  cases filters with
  | nil => rfl
  | cons e fs =>
    rw [arguments_cons, List.length_cons, List.length_append, List.length_append, hbehind,
      hargument, List.map_cons, List.sum_cons, if_neg (List.cons_ne_nil e fs), List.length_singleton]
    omega

end Selection

/-- What a node adds to the length of the document, apart from its children's texts. -/
def Node.printedLength (n : Node) : Nat :=
  (n.name.map List.length).getD 0 + (n.aliasName.map fun a => a.length + 1).getD 0 +
    ((n.filters.map fun e => e.1.length + e.2.length + 3).sum +
      if n.filters = [] then 0 else 2) +
    if n.children = [] then 0 else n.children.length + 1

theorem Selection.length_heading (n : Node) :
    (heading n.isRoot n.aliasName n.name).length =
      (if n.isRoot then 5 else 0) + ((n.name.map List.length).getD 0 +
        (n.aliasName.map fun a => a.length + 1).getD 0) := by
  have hroot : (if n.isRoot then "query".toList else []).length = if n.isRoot then 5 else 0 := by
    split <;> rfl
  simp only [heading, List.length_append, hroot]
  cases n.name with
  | none => cases n.aliasName <;> simp
  | some s =>
    cases n.aliasName with
    | none => simp
    | some a =>
      simp only [Option.getD_some, Option.map_some, List.length_append, List.length_singleton]
      omega

/-- The nodes that have been come to, in their order, and the text that has been written. -/
structure Printout where
  visited : List Nat
  text : Text

namespace Tree

/-- What the printer does from a node on, up to the end of that node's text. Nothing here sees
to it that this ends: a node below itself would have no printout. -/
inductive Prints (t : Tree) (sep : Text) : Nat → Printout → Prop where
  | node {id : Nat} {n : Node} {parts : List Printout} (hn : t.node? id = some n)
      (hparts : List.Forall₂ (Prints t sep) n.children parts) :
      Prints t sep id ⟨id :: parts.flatMap Printout.visited,
        Selection.heading n.isRoot n.aliasName n.name ++
          (Selection.arguments sep n.filters ++ braced (parts.map Printout.text))⟩

/-- The node at an index and all nodes below it, each before its children. -/
def printOrder (t : Tree) (id : Nat) : List Nat :=
  let below := (t.children id).filter fun c => id < c ∧ c < t.size
  id :: below.attach.flatMap fun c => t.printOrder c.1
termination_by t.size - id
decreasing_by
  have hc := of_decide_eq_true (List.mem_filter.1 c.2).2
  omega

/-- The second node is the first one or one of its descendants. -/
abbrev Below (t : Tree) : Nat → Nat → Prop :=
  Relation.ReflTransGen fun p c => t.parent c = some p

theorem below_iff {t : Tree} {id i : Nat} :
    t.Below id i ↔ id = i ∨ ∃ c, t.parent c = some id ∧ t.Below c i :=
  Relation.ReflTransGen.cases_head_iff

theorem eq_map_of_forall₂ {α β : Type} {R : α → β → Prop} {f : α → β} {as : List α} {bs : List β}
    (h : List.Forall₂ R as bs) (hf : ∀ a ∈ as, ∀ b, R a b → b = f a) : bs = as.map f := by
  induction h with
  | nil => rfl
  | cons hab _ ih =>
    obtain ⟨ha, has⟩ := List.forall_mem_cons.1 hf
    rw [List.map_cons, ha _ hab, ih has]

namespace WellFormed
variable {t : Tree} (h : t.WellFormed)
include h

theorem printOrder_eq (id : Nat) :
    t.printOrder id = id :: (t.children id).flatMap t.printOrder := by
  rw [printOrder]
  simp only [List.flatMap_subtype, List.unattach_attach]
  rw [List.filter_eq_self.2 fun c hc => decide_eq_true ?_]
  exact ⟨h.parent_lt ((h.mem_children id c).1 hc), h.lt_size_of_mem hc⟩

theorem printFrom_eq {id : Nat} {n : Node} (hn : t.node? id = some n) (sep : Text) :
    t.printFrom id sep = Selection.heading n.isRoot n.aliasName n.name ++
      (Selection.arguments sep n.filters ++ braced (n.children.map (t.printFrom · sep))) := by
  rw [printFrom, selection_eq hn (h.children_lt_size hn), Selection.text_eq,
    Selection.block_eq_braced, List.map_map]
  rfl

theorem prints_printOrder {id : Nat} (hid : id < t.size) (sep : Text) :
    t.Prints sep id ⟨t.printOrder id, t.printFrom id sep⟩ := by
  refine h.of_children (P := fun id => t.Prints sep id ⟨t.printOrder id, t.printFrom id sep⟩)
    (fun id n hn ih => ?_) hid
  have hparts : List.Forall₂ (t.Prints sep) n.children
      (n.children.map fun c => ⟨t.printOrder c, t.printFrom c sep⟩) :=
    List.forall₂_map_right_iff.2 (List.forall₂_same.2 ih)
  have hnode := Prints.node hn hparts
  rw [List.flatMap_map, List.map_map] at hnode
  rw [h.printOrder_eq, h.printFrom_eq hn, children_of_node? hn]
  exact hnode

theorem eq_of_prints {id : Nat} (hid : id < t.size) {sep : Text} {p : Printout}
    (hp : t.Prints sep id p) : p = ⟨t.printOrder id, t.printFrom id sep⟩ := by
  refine h.of_children (P := fun id => ∀ p, t.Prints sep id p →
    p = ⟨t.printOrder id, t.printFrom id sep⟩) (fun id n hn ih p hp => ?_) hid p hp
  cases hp with
  | node hn' hparts =>
    cases hn.symm.trans hn'
    rw [eq_map_of_forall₂ hparts ih, h.printOrder_eq, h.printFrom_eq hn, children_of_node? hn,
      List.flatMap_map, List.map_map]
    rfl

theorem le_of_below {id i : Nat} (hi : t.Below id i) : id ≤ i := by
  induction hi with
  | refl => exact Nat.le_refl id
  | tail _ hp ih => exact Nat.le_of_lt (Nat.lt_of_le_of_lt ih (h.parent_lt hp))

theorem path_prefix_of_below {id i : Nat} (hi : t.Below id i) : t.path id <+: t.path i := by
  induction hi with
  | refl => exact List.prefix_rfl
  | tail _ hp ih =>
    obtain ⟨-, -, s, hpath⟩ := h.child_path ((h.mem_children _ _).2 hp)
    rw [hpath]
    exact ih.trans (List.prefix_append _ _)

theorem below_root_iff {i : Nat} (hroot : root < t.size) : t.Below root i ↔ i < t.size := by
  constructor
  · intro hi
    cases hi with
    | refl => exact hroot
    | tail _ hp => exact lt_size_of_parent hp
  · intro hi
    induction i using Nat.strongRecOn with
    | ind i ih =>
      rcases Nat.eq_zero_or_pos i with rfl | hpos
      · exact .refl
      · obtain ⟨p, hp, hlt⟩ := h.parent i hpos hi
        exact (ih p hlt (Nat.lt_trans hlt hi)).tail hp

theorem mem_printOrder_iff {id i : Nat} (hid : id < t.size) :
    i ∈ t.printOrder id ↔ t.Below id i := by
  refine h.of_children (P := fun id => i ∈ t.printOrder id ↔ t.Below id i)
    (fun id n hn ih => ?_) hid
  rw [← children_of_node? hn] at ih
  rw [h.printOrder_eq, List.mem_cons, List.mem_flatMap, below_iff]
  constructor
  · rintro (rfl | ⟨c, hc, hi⟩)
    · exact .inl rfl
    · exact .inr ⟨c, (h.mem_children id c).1 hc, (ih c hc).1 hi⟩
  · rintro (rfl | ⟨c, hp, hi⟩)
    · exact .inl rfl
    · have hc := (h.mem_children id c).2 hp
      exact .inr ⟨c, hc, (ih c hc).2 hi⟩

/-- Two children of one node have paths of one length, so nothing is below both. -/
theorem not_below_both {id c d i : Nat} (hc : c ∈ t.children id) (hd : d ∈ t.children id)
    (hne : c ≠ d) (hci : t.Below c i) : ¬ t.Below d i := by
  intro hdi
  obtain ⟨-, hcsize, s, hcpath⟩ := h.child_path hc
  obtain ⟨-, hdsize, s', hdpath⟩ := h.child_path hd
  have hlength : (t.path c).length = (t.path d).length := by simp [hcpath, hdpath]
  have hinit := List.prefix_of_prefix_length_le (h.path_prefix_of_below hci)
    (h.path_prefix_of_below hdi) (Nat.le_of_eq hlength)
  exact hne (h.path_inj hcsize hdsize (hinit.eq_of_length hlength))

theorem nodup_printOrder {id : Nat} (hid : id < t.size) : (t.printOrder id).Nodup := by
  refine h.of_children (P := fun id => (t.printOrder id).Nodup) (fun id n hn ih => ?_) hid
  rw [← children_of_node? hn] at ih
  have hmem {c i : Nat} (hc : c ∈ t.children id) : i ∈ t.printOrder c ↔ t.Below c i :=
    h.mem_printOrder_iff (h.lt_size_of_mem hc)
  rw [h.printOrder_eq, List.nodup_cons, List.nodup_flatMap]
  refine ⟨fun hself => ?_, ih, ?_⟩
  · obtain ⟨c, hc, hi⟩ := List.mem_flatMap.1 hself
    have hlt := h.parent_lt ((h.mem_children id c).1 hc)
    exact absurd (h.le_of_below ((hmem hc).1 hi)) (Nat.not_le_of_lt hlt)
  · refine (h.nodup_children id).imp_of_mem fun {c d} hc hd hne i hci hdi => ?_
    exact h.not_below_both hc hd hne ((hmem hc).1 hci) ((hmem hd).1 hdi)

theorem printOrder_root_perm (hroot : root < t.size) :
    (t.printOrder root).Perm (List.range t.size) := by
  refine (List.perm_ext_iff_of_nodup (h.nodup_printOrder hroot) List.nodup_range).2 fun i => ?_
  rw [h.mem_printOrder_iff hroot, h.below_root_iff hroot, List.mem_range]

theorem printFrom_infix {id i : Nat} (hi : t.Below id i) (sep : Text) :
    t.printFrom i sep <:+: t.printFrom id sep := by
  induction hi with
  | refl => exact List.infix_rfl
  | @tail p c _ hp ih =>
    obtain ⟨n, hn⟩ := exists_node? (Nat.lt_trans (h.parent_lt hp) (lt_size_of_parent hp))
    have hc := (h.mem_children p c).2 hp
    rw [children_of_node? hn] at hc
    have hmem : t.printFrom c sep ∈ n.children.map (t.printFrom · sep) := List.mem_map.2 ⟨c, hc, rfl⟩
    refine List.IsInfix.trans ?_ ih
    rw [h.printFrom_eq hn, ← List.append_assoc]
    exact (infix_braced hmem).trans (List.suffix_append _ _).isInfix

end WellFormed

/-- What the node at an index adds to the length of the document. -/
def printedLength (t : Tree) (i : Nat) : Nat := ((t.node? i).map Node.printedLength).getD 0

theorem WellFormed.length_printFrom {t : Tree} (h : t.WellFormed) {id : Nat} (hid : id < t.size) :
    (t.printFrom id []).length =
      (if id = root then 5 else 0) + ((t.printOrder id).map t.printedLength).sum := by
  refine h.of_children (P := fun id => (t.printFrom id []).length =
    (if id = root then 5 else 0) + ((t.printOrder id).map t.printedLength).sum)
    (fun id n hn ih => ?_) hid
  have hroot : (n.isRoot = true) = (id = root) := propext (h.isRoot_iff hn)
  have hown : t.printedLength id = n.printedLength := by
    rw [printedLength, hn, Option.map_some, Option.getD_some]
  have hbelow : ((n.children.map (t.printFrom · [])).map List.length).sum =
      ((n.children.flatMap t.printOrder).map t.printedLength).sum := by
    rw [List.map_flatMap, List.flatMap_def, List.sum_flatten, List.map_map, List.map_map]
    refine congrArg List.sum (List.map_congr_left fun c hc => ?_)
    have hne : c ≠ root := Nat.ne_of_gt (Nat.zero_lt_of_lt (h.children_lt_size hn c hc).1)
    have hlength := ih c hc
    rw [if_neg hne, Nat.zero_add] at hlength
    exact hlength
  rw [h.printOrder_eq, h.printFrom_eq hn, children_of_node? hn, List.map_cons, List.sum_cons, hown,
    List.length_append, List.length_append, Selection.length_heading, Selection.length_arguments,
    length_braced, hbelow, Node.printedLength]
  simp only [hroot, List.map_eq_nil_iff, List.length_map]
  omega

theorem map_printedLength_range (t : Tree) :
    (List.range t.size).map t.printedLength = t.nodes.toList.map Node.printedLength := by
  refine List.ext_getElem (by simp [size]) fun i hi _ => ?_
  have hlt : i < t.nodes.size := by simpa [size] using hi
  simp [printedLength, node?, hlt]

/-- From the root the printer comes to every node once, and from any node to that node and what
is below it; it writes the text of the node, which is part of the whole document. So a document
is five characters longer than what its nodes add up to. -/
theorem Reachable.prints_every_node {t : Tree} (h : Reachable t) (sep : Text) :
    (∀ id, id < t.size → ∀ p, t.Prints sep id p ↔ p = ⟨t.printOrder id, t.printFrom id sep⟩) ∧
      (t.printOrder root).Perm (List.range t.size) ∧
      (∀ id, id < t.size → t.printAt id sep = .ok (t.printFrom id sep) ∧
        (t.printOrder id).Nodup ∧ (∀ i, i ∈ t.printOrder id ↔ t.Below id i) ∧
        t.printFrom id sep <:+: t.print sep) ∧
      t.query.length = 5 + (t.nodes.toList.map Node.printedLength).sum := by
  have hw := h.wellFormed
  have hroot := h.root_lt
  refine ⟨fun id hid p => ⟨hw.eq_of_prints hid, fun hp => hp ▸ hw.prints_printOrder hid sep⟩,
    hw.printOrder_root_perm hroot, fun id hid => ⟨?_, hw.nodup_printOrder hid,
      fun i => hw.mem_printOrder_iff hid, ?_⟩, ?_⟩
  · obtain ⟨n, hn⟩ := exists_node? hid
    rw [printAt, nodeAt, hn]
    rfl
  · exact hw.printFrom_infix ((hw.below_root_iff hroot).2 hid) sep
  · have hlength := hw.length_printFrom hroot
    rw [if_pos rfl, ((hw.printOrder_root_perm hroot).map _).sum_nat, map_printedLength_range]
      at hlength
    exact hlength

/-- The fields `a` and `c` are older than `b`, which is printed between them. -/
theorem Reachable.prints_every_node_breadthFirst :
    Reachable breadthFirst ∧
      (∃ p, breadthFirst.Prints [','] root p ∧ p.visited.Perm [0, 1, 2, 3] ∧
        p.text = "query\x7ba(k:\"1\",l:\"2\")\x7bx:b\x7d,c\x7d".toList) ∧
      breadthFirst.printFrom 1 [','] <:+: breadthFirst.print [','] ∧
      breadthFirst.query.length = 27 := by
  have h : Reachable breadthFirst := .after .empty _ trivial
  have hsize : breadthFirst.size = 4 := by decide +kernel
  obtain ⟨hprints, hperm, hnode, hlength⟩ := h.prints_every_node [',']
  rw [hsize] at hprints hperm hnode
  refine ⟨h, ⟨_, (hprints root (by decide) _).2 rfl, hperm, ?_⟩, (hnode 1 (by decide)).2.2.2, ?_⟩
  · decide +kernel
  · rw [hlength]
    decide +kernel

end Tree

end QueryShorthand
