import Mathlib.Data.List.Forall2
import QueryShorthand.Proofs.WellFormed
import QueryShorthand.Text.Spans
import QueryShorthand.Tree.Document

/-! A document determines its tree, as long as no name, alias or key holds one of the
characters that documents are laid out with and no value holds a quote. Each part of a
document ends where it must: the lemmas cancel one part at a time from equal texts. -/

namespace QueryShorthand
set_option autoImplicit false

def marks : List Char := ['{', '}', '(', ')', ',', ':', '"']

def isWordChar (c : Char) : Bool := !marks.contains c

def Unmarked (s : Text) : Prop := ∀ c ∈ s, isWordChar c

def Filters.Plain (fs : Filters) : Prop := ∀ e ∈ fs, Unmarked e.1 ∧ '"' ∉ e.2

structure Node.Plain (n : Node) : Prop where
  name : ∀ s ∈ n.name, Unmarked s
  aliasName : ∀ s ∈ n.aliasName, Unmarked s
  filters : n.filters.Plain

def Tree.Plain (t : Tree) : Prop := ∀ n ∈ t.nodes.toList, n.Plain

instance (s : Text) : Decidable (Unmarked s) :=
  List.decidableBAll (fun c => isWordChar c) s

instance (fs : Filters) : Decidable fs.Plain :=
  inferInstanceAs (Decidable (∀ e ∈ fs, Unmarked e.1 ∧ '"' ∉ e.2))

instance (n : Node) : Decidable n.Plain :=
  decidable_of_iff ((∀ s ∈ n.name, Unmarked s) ∧ (∀ s ∈ n.aliasName, Unmarked s) ∧ n.filters.Plain)
    ⟨fun h => ⟨h.1, h.2.1, h.2.2⟩, fun h => ⟨h.name, h.aliasName, h.filters⟩⟩

instance (t : Tree) : Decidable t.Plain :=
  inferInstanceAs (Decidable (∀ n ∈ t.nodes.toList, n.Plain))

/-- The text is at its end or goes on with one of the given characters. -/
def StartsIn (cs : List Char) (s : Text) : Prop := ∀ c ∈ s.head?, c ∈ cs

theorem StartsIn.stops {cs : List Char} {s : Text} (h : StartsIn cs s) (hcs : cs ⊆ marks) :
    Stops isWordChar s := by
  intro c hc
  simpa [isWordChar] using hcs (h c hc)

theorem StartsIn.ne_cons {cs : List Char} {c : Char} {s t : Text} (h : StartsIn cs s) (hc : c ∉ cs) :
    s ≠ c :: t := by
  intro he
  exact hc (h c (he ▸ rfl))

theorem Unmarked.append_inj {w w' s s' : Text} (hw : Unmarked w) (hw' : Unmarked w')
    (hs : Stops isWordChar s) (hs' : Stops isWordChar s') (h : w ++ s = w' ++ s') :
    w = w' ∧ s = s' :=
  append_inj_of_stops hw hs hw' hs' h

namespace Selection

/-- Only the root of a plain selection lacks a name, and nothing in it is marked. -/
inductive Plain : Bool → Selection → Prop where
  | mk {isRoot : Bool} {aliasName name : Option Text} {filters : Filters}
      {children : List Selection} (hroot : name.isNone = isRoot)
      (hname : ∀ s ∈ name, Unmarked s) (halias : ∀ s ∈ aliasName, Unmarked s)
      (hfilters : filters.Plain) (hchildren : ∀ c ∈ children, Plain false c) :
      Plain isRoot (.mk isRoot aliasName name filters children)

/-- An alias is told from a name by the colon behind it. -/
theorem word_append_ne {w w' s s' : Text} (hw : Unmarked w) (hw' : Unmarked w')
    (hs : StartsIn ['(', '{', ',', '}'] s) : w ++ s ≠ w' ++ ':' :: s' := by
  intro h
  obtain ⟨-, rfl⟩ := hw.append_inj hw' (hs.stops (by decide)) (stops_cons.2 rfl) h
  exact hs.ne_cons (by decide) rfl

theorem unmarked_getD {m : Option Text} (hm : ∀ w ∈ m, Unmarked w) : Unmarked (m.getD []) := by
  cases m with
  | none =>
    intro c hc
    cases hc
  | some w => exact hm w rfl

theorem name_append_inj {n n' : Option Text} {s s' : Text} (hnone : n.isNone = n'.isNone)
    (hname : ∀ w ∈ n, Unmarked w) (hname' : ∀ w ∈ n', Unmarked w) (hs : Stops isWordChar s)
    (hs' : Stops isWordChar s') (h : n.getD [] ++ s = n'.getD [] ++ s') : n = n' ∧ s = s' := by
  obtain ⟨hw, hr⟩ := (unmarked_getD hname).append_inj (unmarked_getD hname') hs hs' h
  refine ⟨?_, hr⟩
  cases n with
  | none =>
    cases n' with
    | none => rfl
    | some w' => cases hnone
  | some w =>
    cases n' with
    | none => cases hnone
    | some w' => exact congrArg some hw

theorem heading_append_inj {isRoot : Bool} {a a' n n' : Option Text} {s s' : Text}
    (hn : n.isNone = isRoot) (hn' : n'.isNone = isRoot)
    (hname : ∀ w ∈ n, Unmarked w) (hname' : ∀ w ∈ n', Unmarked w)
    (halias : ∀ w ∈ a, Unmarked w) (halias' : ∀ w ∈ a', Unmarked w)
    (hs : StartsIn ['(', '{', ',', '}'] s) (hs' : StartsIn ['(', '{', ',', '}'] s')
    (h : heading isRoot a n ++ s = heading isRoot a' n' ++ s') : a = a' ∧ n = n' ∧ s = s' := by
  have hword (h : n.getD [] ++ s = n'.getD [] ++ s') : n = n' ∧ s = s' :=
    name_append_inj (hn.trans hn'.symm) hname hname' (hs.stops (by decide)) (hs'.stops (by decide)) h
  simp only [heading, List.append_assoc] at h
  replace h := List.append_cancel_left h
  cases a with
  | none =>
    cases a' with
    | none => exact ⟨rfl, hword h⟩
    | some w' =>
      simp only [List.append_assoc, List.cons_append, List.nil_append] at h
      exact absurd h (word_append_ne (unmarked_getD hname) (halias' w' rfl) hs)
  | some w =>
    cases a' with
    | none =>
      simp only [List.append_assoc, List.cons_append, List.nil_append] at h
      exact absurd h.symm (word_append_ne (unmarked_getD hname') (halias w rfl) hs')
    | some w' =>
      simp only [List.append_assoc, List.cons_append, List.nil_append] at h
      obtain ⟨rfl, hr⟩ := (halias w rfl).append_inj (halias' w' rfl) (stops_cons.2 rfl)
        (stops_cons.2 rfl) h
      exact ⟨rfl, hword (List.cons.inj hr).2⟩

theorem argument_append (e : Text × Text) (s : Text) :
    argument e ++ s = e.1 ++ ':' :: '"' :: (e.2 ++ '"' :: s) := by
  simp [argument]

theorem argument_append_inj {e e' : Text × Text} {s s' : Text}
    (he : Unmarked e.1 ∧ '"' ∉ e.2) (he' : Unmarked e'.1 ∧ '"' ∉ e'.2)
    (h : argument e ++ s = argument e' ++ s') : e = e' ∧ s = s' := by
  rw [argument_append, argument_append] at h
  obtain ⟨hkey, h⟩ := he.1.append_inj he'.1 (stops_cons.2 rfl) (stops_cons.2 rfl) h
  obtain ⟨hvalue, h⟩ := append_inj_of_stops (forall_bne_of_not_mem he.2) (by simp)
    (forall_bne_of_not_mem he'.2) (by simp)
    (List.cons.inj (List.cons.inj h).2).2
  exact ⟨Prod.ext hkey hvalue, (List.cons.inj h).2⟩

theorem arguments_cons (sep : Text) (e : Text × Text) (fs : Filters) :
    arguments sep (e :: fs) =
      '(' :: (argument e ++ ((fs.flatMap fun f => sep ++ argument f) ++ [')'])) := by
  rw [arguments, List.map_cons, intercalate_cons_eq, List.flatMap_map, List.append_assoc]
  simp

/-- No argument begins like the end of the arguments. -/
theorem ne_paren_of_argument {sep : Text} {e : Text × Text} {s s' : Text} (he : Unmarked e.1)
    (hsep : sep = [] ∨ sep = [',']) : ')' :: s ≠ sep ++ (argument e ++ s') := by
  rw [argument_append]
  rcases hsep with rfl | rfl
  · intro h
    cases hk : e.1 with
    | nil => simp [hk] at h
    | cons c k =>
      have hc : isWordChar c := he c (by simp [hk])
      rw [hk] at h
      have hparen : ')' = c := (List.cons.inj h).1
      rw [← hparen] at hc
      exact absurd hc (by decide)
  · simp

theorem Filters.plain_cons {e : Text × Text} {fs : Filters} :
    Filters.Plain (e :: fs) ↔ (Unmarked e.1 ∧ '"' ∉ e.2) ∧ fs.Plain :=
  List.forall_mem_cons

theorem argumentsBehind_append_inj {sep : Text} (hsep : sep = [] ∨ sep = [',']) {fs fs' : Filters}
    {s s' : Text} (hf : fs.Plain) (hf' : fs'.Plain)
    (h : (fs.flatMap fun f => sep ++ argument f) ++ ')' :: s =
      (fs'.flatMap fun f => sep ++ argument f) ++ ')' :: s') : fs = fs' ∧ s = s' := by
  induction fs generalizing fs' with
  | nil =>
    cases fs' with
    | nil => exact ⟨rfl, (List.cons.inj h).2⟩
    | cons f' fs' =>
      rw [List.flatMap_cons, List.append_assoc, List.append_assoc] at h
      exact absurd h (ne_paren_of_argument (Filters.plain_cons.1 hf').1.1 hsep)
  | cons f fs ih =>
    obtain ⟨hhead, htail⟩ := Filters.plain_cons.1 hf
    rw [List.flatMap_cons, List.append_assoc, List.append_assoc] at h
    cases fs' with
    | nil => exact absurd h.symm (ne_paren_of_argument hhead.1 hsep)
    | cons f' fs' =>
      obtain ⟨hhead', htail'⟩ := Filters.plain_cons.1 hf'
      rw [List.flatMap_cons, List.append_assoc, List.append_assoc] at h
      obtain ⟨rfl, hr⟩ := argument_append_inj hhead hhead' (List.append_cancel_left h)
      obtain ⟨rfl, hs⟩ := ih htail htail' hr
      exact ⟨rfl, hs⟩

theorem arguments_append_inj {sep : Text} (hsep : sep = [] ∨ sep = [',']) {fs fs' : Filters}
    {s s' : Text} (hf : fs.Plain) (hf' : fs'.Plain) (hs : StartsIn ['{', ',', '}'] s)
    (hs' : StartsIn ['{', ',', '}'] s')
    (h : arguments sep fs ++ s = arguments sep fs' ++ s') : fs = fs' ∧ s = s' := by
  cases fs with
  | nil =>
    cases fs' with
    | nil => exact ⟨rfl, h⟩
    | cons e' fs' =>
      have he : s = '(' :: _ := h
      exact absurd he (hs.ne_cons (by decide))
  | cons e fs =>
    cases fs' with
    | nil =>
      have he : s' = '(' :: _ := h.symm
      exact absurd he (hs'.ne_cons (by decide))
    | cons e' fs' =>
      obtain ⟨hhead, htail⟩ := Filters.plain_cons.1 hf
      obtain ⟨hhead', htail'⟩ := Filters.plain_cons.1 hf'
      simp only [arguments_cons, List.append_assoc, List.cons_append, List.nil_append] at h
      obtain ⟨rfl, hr⟩ := argument_append_inj hhead hhead' (List.cons.inj h).2
      obtain ⟨rfl, hr'⟩ := argumentsBehind_append_inj hsep htail htail' hr
      exact ⟨rfl, hr'⟩

def block (sep : Text) : List Selection → Text
  | [] => []
  | first :: others => '{' :: (first.text sep ++ textBehind sep others)

theorem text_eq (sep : Text) (isRoot : Bool) (aliasName name : Option Text) (filters : Filters)
    (children : List Selection) :
    text sep (.mk isRoot aliasName name filters children) =
      heading isRoot aliasName name ++ (arguments sep filters ++ block sep children) := by
  cases children <;> simp [text, block]

/-- What follows the text of a selection inside a block, or at the end. -/
abbrev Ended (s : Text) : Prop := StartsIn [',', '}'] s

theorem textBehind_ended (sep : Text) (cs : List Selection) (s : Text) :
    Ended (textBehind sep cs ++ s) := by
  cases cs <;> simp [textBehind, Ended, StartsIn]

theorem block_startsIn (sep : Text) (cs : List Selection) {s : Text} (hs : Ended s) :
    StartsIn ['{', ',', '}'] (block sep cs ++ s) := by
  cases cs with
  | nil => exact fun c hc => List.mem_cons_of_mem _ (hs c hc)
  | cons c cs => simp [block, StartsIn]

theorem arguments_startsIn (sep : Text) (fs : Filters) {s : Text} (hs : StartsIn ['{', ',', '}'] s) :
    StartsIn ['(', '{', ',', '}'] (arguments sep fs ++ s) := by
  cases fs with
  | nil => exact fun c hc => List.mem_cons_of_mem _ (hs c hc)
  | cons e fs => simp [arguments_cons, StartsIn]

/-- The text of `c` can be cancelled from in front of whatever may follow it. -/
def Cancels (sep : Text) (isRoot : Bool) (c : Selection) : Prop :=
  ∀ {c' : Selection} {s s' : Text}, Plain isRoot c' → Ended s → Ended s' →
    c.text sep ++ s = c'.text sep ++ s' → c = c' ∧ s = s'

theorem textBehind_append_inj {sep : Text} {cs cs' : List Selection} {s s' : Text}
    (hcs : ∀ c ∈ cs, Cancels sep false c) (hcs' : ∀ c ∈ cs', Plain false c)
    (h : textBehind sep cs ++ s = textBehind sep cs' ++ s') : cs = cs' ∧ s = s' := by
  induction cs generalizing cs' with
  | nil =>
    cases cs' with
    | nil => exact ⟨rfl, (List.cons.inj h).2⟩
    | cons c' cs' => simp [textBehind] at h
  | cons c cs ih =>
    cases cs' with
    | nil => simp [textBehind] at h
    | cons c' cs' =>
      simp only [textBehind, List.cons_append, List.append_assoc, List.cons.injEq, true_and] at h
      obtain ⟨rfl, hr⟩ := hcs c (by simp) (hcs' c' (by simp)) (textBehind_ended sep cs s)
        (textBehind_ended sep cs' s') h
      obtain ⟨rfl, hs⟩ := ih (fun d hd => hcs d (by simp [hd])) (fun d hd => hcs' d (by simp [hd])) hr
      exact ⟨rfl, hs⟩

theorem block_append_inj {sep : Text} {cs cs' : List Selection} {s s' : Text}
    (hcs : ∀ c ∈ cs, Cancels sep false c) (hcs' : ∀ c ∈ cs', Plain false c) (hs : Ended s)
    (hs' : Ended s') (h : block sep cs ++ s = block sep cs' ++ s') : cs = cs' ∧ s = s' := by
  cases cs with
  | nil =>
    cases cs' with
    | nil => exact ⟨rfl, h⟩
    | cons c' cs' =>
      have he : s = '{' :: _ := h
      exact absurd he (hs.ne_cons (by decide))
  | cons c cs =>
    cases cs' with
    | nil =>
      have he : s' = '{' :: _ := h.symm
      exact absurd he (hs'.ne_cons (by decide))
    | cons c' cs' =>
      -- A block is what stands behind a first field, but for the character that opens it.
      have hcons : textBehind sep (c :: cs) ++ s = textBehind sep (c' :: cs') ++ s' := by
        simp only [textBehind, List.cons_append]
        exact congrArg (',' :: ·) (List.cons.inj h).2
      exact textBehind_append_inj hcs hcs' hcons

theorem Plain.cancels {sep : Text} (hsep : sep = [] ∨ sep = [',']) {isRoot : Bool} {c : Selection}
    (hc : Plain isRoot c) : Cancels sep isRoot c := by
  induction hc with
  | mk hroot hname halias hfilters hchildren ih =>
    intro c' s s' hc' hs hs' h
    cases hc' with
    | mk hroot' hname' halias' hfilters' hchildren' =>
      rw [text_eq, text_eq, List.append_assoc, List.append_assoc, List.append_assoc,
        List.append_assoc] at h
      have hb (cs : List Selection) := block_startsIn sep cs hs
      have hb' (cs : List Selection) := block_startsIn sep cs hs'
      obtain ⟨rfl, rfl, hr⟩ := heading_append_inj hroot hroot' hname hname' halias halias'
        (arguments_startsIn sep _ (hb _)) (arguments_startsIn sep _ (hb' _)) h
      obtain ⟨rfl, hr'⟩ := arguments_append_inj hsep hfilters hfilters' (hb _) (hb' _) hr
      obtain ⟨rfl, hr''⟩ := block_append_inj ih hchildren' hs hs' hr'
      exact ⟨rfl, hr''⟩

end Selection

namespace Tree

/-- Two nodes stand for the same ordered tree: they agree in what they hold, and their
children do so one by one. -/
inductive Alike (t u : Tree) : Nat → Nat → Prop where
  | mk {i j : Nat} {m n : Node} (hm : t.node? i = some m) (hn : u.node? j = some n)
      (hname : m.name = n.name) (halias : m.aliasName = n.aliasName)
      (hfilters : m.filters = n.filters)
      (hchildren : List.Forall₂ (Alike t u) m.children n.children) : Alike t u i j

theorem WellFormed.isNone_name {t : Tree} (h : t.WellFormed) {i : Nat} {n : Node}
    (hn : t.node? i = some n) : n.name.isNone = n.isRoot := by
  have hname : t.name i = n.name := name_of_node? hn
  rcases Nat.eq_zero_or_pos i with rfl | hi
  · rw [(h.isRoot_iff hn).2 rfl, ← hname, show t.name 0 = none from h.root_name]
    rfl
  · obtain ⟨s, hs, -⟩ := h.name i hi (lt_size_of_node? hn)
    have hroot : n.isRoot = false := by
      rw [Bool.eq_false_iff, ne_eq, h.isRoot_iff hn]
      omega
    rw [hroot, ← hname, hs]
    rfl

theorem WellFormed.selection_plain {t : Tree} (h : t.WellFormed) (hplain : t.Plain) {i : Nat}
    {n : Node} (hn : t.node? i = some n) : (t.selection i).Plain n.isRoot := by
  refine h.of_children (P := fun i => ∀ n, t.node? i = some n → (t.selection i).Plain n.isRoot)
    (fun i n hn ih n' hn' => ?_) (lt_size_of_node? hn) n hn
  cases hn.symm.trans hn'
  have hc := h.children_lt_size hn
  have hp := hplain n (Array.mem_toList_iff.2 (Array.mem_of_getElem? hn))
  rw [selection_eq hn hc]
  refine .mk (h.isNone_name hn) hp.name hp.aliasName hp.filters fun s hs => ?_
  obtain ⟨c, hmem, rfl⟩ := List.mem_map.1 hs
  obtain ⟨hlt, hsize⟩ := hc c hmem
  obtain ⟨m, hm⟩ := exists_node? hsize
  have hroot : m.isRoot = false := by
    rw [Bool.eq_false_iff, ne_eq, h.isRoot_iff hm]
    exact Nat.ne_of_gt (Nat.zero_lt_of_lt hlt)
  exact hroot ▸ ih c hmem m hm

theorem forall₂_of_map_eq {α β γ : Type} {f : α → γ} {g : β → γ} {R : α → β → Prop} {as : List α}
    {bs : List β} (h : as.map f = bs.map g) (hR : ∀ a ∈ as, ∀ b ∈ bs, f a = g b → R a b) :
    List.Forall₂ R as bs := by
  induction as generalizing bs with
  | nil =>
    rw [List.map_nil, eq_comm, List.map_eq_nil_iff] at h
    exact h ▸ .nil
  | cons a as ih =>
    cases bs with
    | nil => cases h
    | cons b bs =>
      obtain ⟨hab, hrest⟩ := List.cons.inj h
      refine .cons (hR a (by simp) b (by simp) hab) (ih hrest fun x hx y hy => ?_)
      exact hR x (by simp [hx]) y (by simp [hy])

theorem WellFormed.alike_of_selection_eq {t u : Tree} (ht : t.WellFormed) (hu : u.WellFormed)
    {i j : Nat} (hi : i < t.size) (hj : j < u.size) (h : t.selection i = u.selection j) :
    Alike t u i j := by
  refine ht.of_children (P := fun i => ∀ j, j < u.size → t.selection i = u.selection j →
    Alike t u i j) (fun i m hm ih j hj h => ?_) hi j hj h
  obtain ⟨n, hn⟩ := exists_node? hj
  have hcn := hu.children_lt_size hn
  rw [selection_eq hm (ht.children_lt_size hm), selection_eq hn hcn, Selection.mk.injEq] at h
  obtain ⟨-, halias, hname, hfilters, hchildren⟩ := h
  refine .mk hm hn hname halias hfilters (forall₂_of_map_eq hchildren fun c hc d hd hcd => ?_)
  exact ih c hc d (hcn d hd).2 hcd

/-- Two reachable plain trees with one document are the same ordered tree, whether or not
a comma stands between two arguments. -/
theorem Reachable.alike_of_print_eq {t u : Tree} (ht : Reachable t) (hu : Reachable u)
    (hpt : t.Plain) (hpu : u.Plain) {sep : Text} (hsep : sep = [] ∨ sep = [','])
    (h : t.print sep = u.print sep) : Alike t u root root := by
  have hwt := ht.wellFormed
  have hwu := hu.wellFormed
  obtain ⟨m, hm⟩ := exists_node? ht.root_lt
  obtain ⟨n, hn⟩ := exists_node? hu.root_lt
  have hroot : n.isRoot = m.isRoot := by rw [(hwt.isRoot_iff hm).2 rfl, (hwu.isRoot_iff hn).2 rfl]
  have hpm := hwt.selection_plain hpt hm
  have hpn := hwu.selection_plain hpu hn
  rw [hroot] at hpn
  have hend : Selection.Ended [] := by simp [StartsIn]
  have htext : (t.selection root).text sep ++ [] = (u.selection root).text sep ++ [] :=
    congrArg (· ++ []) h
  have hselection := (hpm.cancels hsep hpn hend hend htext).1
  exact hwt.alike_of_selection_eq hwu (lt_size_of_node? hm) (lt_size_of_node? hn) hselection

/-- Two trees with the same fields, which were created in another order. -/
def depthFirst : Tree := Tree.empty.after (.parseFields ["a(k:1)(l:2)(b as x)".toList, "c".toList])

def breadthFirst : Tree :=
  Tree.empty.after (.parseFields ["a,c".toList, "a(k:1)(l:2).b".toList, "a(b as x)".toList])

theorem Reachable.alike_depthFirst_breadthFirst :
    Reachable depthFirst ∧ Reachable breadthFirst ∧ depthFirst.Plain ∧ breadthFirst.Plain ∧
      depthFirst.print [] = breadthFirst.print [] ∧ depthFirst ≠ breadthFirst ∧
      Alike depthFirst breadthFirst root root := by
  have ht : Reachable depthFirst := .after .empty _ trivial
  have hu : Reachable breadthFirst := .after .empty _ trivial
  have hpt : depthFirst.Plain := by decide +kernel
  have hpu : breadthFirst.Plain := by decide +kernel
  have hprint : depthFirst.print [] = breadthFirst.print [] := by decide +kernel
  exact ⟨ht, hu, hpt, hpu, hprint, by decide +kernel,
    ht.alike_of_print_eq hu hpt hpu (.inl rfl) hprint⟩

end Tree

end QueryShorthand
