import QueryShorthand.Transport.FormEncoding

/-! What the command leaves to libraries: reading a URI, writing a request for it, and the words
of errors that are not its own. The libraries are not part of this development. What they are
documented to do is stated here and assumed where a result depends on it. -/

namespace QueryShorthand
set_option autoImplicit false

structure Libraries where
  Url : Type
  /-- The address that a URI stands for, or what is wrong with the URI. -/
  address : Text → Except Text Url
  path : Url → Text
  query : Url → Option Text
  /-- The address with a pair of a name and a value behind its query string. -/
  addPair : Url → Text → Text → Url
  /-- What stands behind the method in a request to the address. -/
  resource : Url → Text
  /-- What is wrong with a text that is not JSON. -/
  jsonFault : Text → Text

/-- With these no request is ever made. -/
def Libraries.offline : Libraries where
  Url := Empty
  address _ := .error "no connections are opened".toList
  path := nofun
  query := nofun
  addPair := nofun
  resource := nofun
  jsonFault _ := []

/-- A URI that names its authority, in its parts. -/
structure Uri where
  scheme : Text
  authority : Text
  path : Text
  query : Option Text
  fragment : Option Text
  deriving DecidableEq

namespace Uri

/-- A part that may be missing, behind the character that announces it. -/
def behind (mark : Char) : Option Text → Text
  | none => []
  | some s => mark :: s

def text (u : Uri) : Text :=
  u.scheme ++ "://".toList ++ u.authority ++ u.path ++ behind '?' u.query ++ behind '#' u.fragment

/-- A character that does not end an authority and is not dropped from it. -/
def isAuthorityChar (c : Char) : Bool := !"/\\?#\t\n\r".toList.contains c

def isPathChar (c : Char) : Bool := c.isAlphanum || "-._~!$&'()*+,;=:@%/".toList.contains c

def isQueryChar (c : Char) : Bool := c.isAlphanum || "-._~!$&()*+,;=:@%/?".toList.contains c

/-- The segments that are steps between directories and not names, in small letters. -/
def dotSegments : List Text :=
  [".".toList, "%2e".toList, "..".toList, ".%2e".toList, "%2e.".toList, "%2e%2e".toList]

/-- Nothing in the path and the query string is changed when the URI is read. -/
structure Plain (u : Uri) : Prop where
  scheme : u.scheme.map Char.toLower ∈ ["http".toList, "https".toList]
  authority : u.authority ≠ [] ∧ ∀ c ∈ u.authority, isAuthorityChar c
  path : (u.path = [] ∨ u.path.head? = some '/') ∧ ∀ c ∈ u.path, isPathChar c
  segments : ∀ s ∈ pieces '/' u.path, s.map Char.toLower ∉ dotSegments
  query : ∀ q ∈ u.query, ∀ c ∈ q, isQueryChar c

/-- An empty path stands for the topmost directory. -/
def requestPath (u : Uri) : Text := if u.path = [] then ['/'] else u.path

end Uri

/-- What is documented of addresses and of requests to them. A fragment has no part in these. -/
structure Libraries.Documented (lib : Libraries) : Prop where
  /-- A question mark in a path and a number sign in a query string are percent-encoded. -/
  encoded : ∀ url, '?' ∉ lib.path url ∧ ∀ q ∈ lib.query url, '#' ∉ q
  plain : ∀ u : Uri, u.Plain → ∀ url, lib.address u.text = .ok url →
    lib.path url = u.requestPath ∧ lib.query url = u.query
  path_addPair : ∀ url name value, lib.path (lib.addPair url name value) = lib.path url
  query_addPair : ∀ url name value, lib.query (lib.addPair url name value) =
    some (FormEncoding.addPair (lib.query url) name value)
  resource : ∀ url, lib.resource url = lib.path url ++ Uri.behind '?' (lib.query url)

end QueryShorthand
