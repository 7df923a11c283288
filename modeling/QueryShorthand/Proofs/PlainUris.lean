import QueryShorthand.Proofs.FormPairs
import QueryShorthand.Text.Spans
import QueryShorthand.Transport.Libraries

/-! Libraries that do what is documented and that can be run. They know plain URIs and refuse all
others: the parts of a plain URI can be told from its text, so the address it stands for is
determined. -/

namespace QueryShorthand
set_option autoImplicit false

namespace Uri

def cut (mark : Char) (s : Text) : Text × Option Text :=
  (s.takeWhile (· != mark), match s.dropWhile (· != mark) with
    | [] => none
    | _ :: rest => some rest)

theorem cut_append {mark : Char} {front : Text} (h : mark ∉ front) (back : Option Text) :
    cut mark (front ++ behind mark back) = (front, back) := by
  have hopen := forall_bne_of_not_mem h
  have hstop : Stops (· != mark) (behind mark back) := by
    cases back <;> simp [behind]
  rw [cut, takeWhile_append_of_stops hopen hstop, dropWhile_append_of_stops hopen hstop]
  cases back <;> rfl

/-- The parts of a URI, if its authority is named. -/
def ofText? (s : Text) : Option Uri :=
  let (main, fragment) := cut '#' s
  match cut ':' main with
  | (scheme, some ('/' :: '/' :: rest)) =>
    let authority := rest.takeWhile isAuthorityChar
    let (path, query) := cut '?' (rest.drop authority.length)
    some ⟨scheme, authority, path, query, fragment⟩
  | _ => none

def isPlain (u : Uri) : Bool :=
  ["http".toList, "https".toList].contains (u.scheme.map Char.toLower) &&
    !u.authority.isEmpty && u.authority.all isAuthorityChar &&
    u.path.head?.all (· == '/') && u.path.all isPathChar &&
    (pieces '/' u.path).all (fun s => !dotSegments.contains (s.map Char.toLower)) &&
    u.query.all (·.all isQueryChar)

theorem isPlain_iff_plain {u : Uri} : u.isPlain ↔ u.Plain := by
  have hpath : u.path.head?.all (· == '/') ↔ u.path = [] ∨ u.path.head? = some '/' := by
    cases u.path <;> simp
  have hquery : u.query.all (·.all isQueryChar) ↔ ∀ q ∈ u.query, ∀ c ∈ q, isQueryChar c := by
    cases u.query <;> simp
  simp only [isPlain, Bool.and_eq_true, hpath, hquery, List.all_eq_true,
    Bool.not_eq_true', List.isEmpty_eq_false_iff, List.contains_eq_mem, decide_eq_true_eq,
    decide_eq_false_iff_not]
  constructor
  · rintro ⟨⟨⟨⟨⟨⟨hscheme, hnamed⟩, hauthority⟩, hrooted⟩, hpath⟩, hsegments⟩, hquery⟩
    exact ⟨hscheme, ⟨hnamed, hauthority⟩, ⟨hrooted, hpath⟩, hsegments, hquery⟩
  · rintro ⟨hscheme, ⟨hnamed, hauthority⟩, ⟨hrooted, hpath⟩, hsegments, hquery⟩
    exact ⟨⟨⟨⟨⟨⟨hscheme, hnamed⟩, hauthority⟩, hrooted⟩, hpath⟩, hsegments⟩, hquery⟩

instance (u : Uri) : Decidable u.Plain := decidable_of_iff _ isPlain_iff_plain

namespace Plain
variable {u : Uri} (h : u.Plain)
include h

theorem not_mem_scheme {c : Char} (hc : c.toLower ∉ "https".toList) : c ∉ u.scheme := by
  intro hmem
  have hlower := List.mem_map_of_mem (f := Char.toLower) hmem
  rcases List.mem_cons.1 h.scheme with hhttp | hhttps
  · rw [hhttp] at hlower
    exact hc (List.mem_append_left ['s'] hlower)
  · rw [List.mem_singleton.1 hhttps] at hlower
    exact hc hlower

theorem not_mem_authority {c : Char} (hc : isAuthorityChar c = false) : c ∉ u.authority :=
  fun hmem => Bool.false_ne_true (hc.symm.trans (h.authority.2 c hmem))

theorem not_mem_path {c : Char} (hc : isPathChar c = false) : c ∉ u.path :=
  fun hmem => Bool.false_ne_true (hc.symm.trans (h.path.2 c hmem))

theorem not_mem_query {c : Char} (hc : isQueryChar c = false) : ∀ q ∈ u.query, c ∉ q :=
  fun q hq hmem => Bool.false_ne_true (hc.symm.trans (h.query q hq c hmem))

theorem hash_not_mem_behind : '#' ∉ behind '?' u.query := by
  have hquery := h.not_mem_query (c := '#') (by decide)
  cases hq : u.query with
  | none => simp [behind]
  | some q => simpa [behind] using hquery q hq

theorem stops_authority : Stops isAuthorityChar (u.path ++ behind '?' u.query) := by
  rcases h.path.1 with hnil | hslash
  · rw [hnil]
    cases u.query with
    | none => simp [behind]
    | some q => exact stops_cons.2 (by decide)
  · obtain ⟨s, hs⟩ := List.head?_eq_some_iff.1 hslash
    rw [hs]
    exact stops_cons.2 (by decide)

theorem ofText?_text : ofText? u.text = some u := by
  have hmain : '#' ∉ u.scheme ++ "://".toList ++ u.authority ++ u.path ++ behind '?' u.query := by
    simp [h.not_mem_scheme (c := '#') (by decide), h.not_mem_authority (c := '#') (by decide),
      h.not_mem_path (c := '#') (by decide), h.hash_not_mem_behind]
  have hscheme : cut ':' (u.scheme ++ "://".toList ++ u.authority ++ u.path ++ behind '?' u.query) =
      (u.scheme, some ('/' :: '/' :: (u.authority ++ (u.path ++ behind '?' u.query)))) := by
    rw [← cut_append (h.not_mem_scheme (c := ':') (by decide))]
    simp [behind]
  have hauthority := takeWhile_append_of_stops h.authority.2 h.stops_authority
  have hquery := cut_append (h.not_mem_path (c := '?') (by decide)) u.query
  simp only [ofText?, text, cut_append hmain, hscheme, hauthority, List.drop_left, hquery]

end Plain

end Uri

/-- The path and the query string of an address. -/
structure PlainUrl where
  path : Text
  query : Option Text
  encoded : '?' ∉ path ∧ ∀ q ∈ query, '#' ∉ q

namespace PlainUrl

def ofUri (u : Uri) (h : u.Plain) : PlainUrl where
  path := u.requestPath
  query := u.query
  encoded := by
    refine ⟨?_, h.not_mem_query (by decide)⟩
    unfold Uri.requestPath
    split
    · decide
    · exact h.not_mem_path (by decide)

def addPair (url : PlainUrl) (name value : Text) : PlainUrl where
  path := url.path
  query := some (FormEncoding.addPair url.query name value)
  encoded := by
    refine ⟨url.encoded.1, ?_⟩
    rintro _ ⟨⟩
    exact FormEncoding.hash_not_mem_addPair url.encoded.2 name value

end PlainUrl

namespace Libraries

def plain : Libraries where
  Url := PlainUrl
  address s :=
    match Uri.ofText? s with
    | some u => if h : u.Plain then .ok (.ofUri u h) else .error "builder error".toList
    | none => .error "builder error".toList
  path := PlainUrl.path
  query := PlainUrl.query
  addPair := PlainUrl.addPair
  resource url := url.path ++ Uri.behind '?' url.query
  jsonFault _ := "expected value at line 1 column 1".toList

theorem plain_address {u : Uri} (h : u.Plain) : plain.address u.text = .ok (.ofUri u h) := by
  simp only [plain, h.ofText?_text, h, dif_pos]

theorem documented_plain : plain.Documented where
  encoded url := url.encoded
  plain u h url hurl := by
    cases hurl.symm.trans (plain_address h)
    exact ⟨rfl, rfl⟩
  path_addPair _ _ _ := rfl
  query_addPair _ _ _ := rfl
  resource _ := rfl

end Libraries

end QueryShorthand
