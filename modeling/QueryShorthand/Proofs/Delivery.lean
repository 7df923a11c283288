import QueryShorthand.Proofs.PlainUris
import QueryShorthand.Transport.Client

/-! What a server finds in the request for a document: the path of the address, the pairs that
its query string has, and the document in one more pair behind them. -/

namespace QueryShorthand
set_option autoImplicit false

/-- A server has the request, whatever becomes of it there. -/
def Exchange.Received : Exchange → Prop
  | .unreachable _ => False
  | _ => True

/-- The last pair of a query string is the document under the name `query`; `own` are the pairs
before it. -/
def EndsWith (parameters : Text) (own : List Text) (document : Text) : Prop :=
  ∃ value, pieces '&' parameters = own ++ ["query=".toList ++ value] ∧
    FormEncoding.decode? value = some document

theorem endsWith_addPair (query : Option Text) (document : Text) :
    EndsWith (FormEncoding.addPair query "query".toList document) (FormEncoding.pairs query)
      document := by
  refine ⟨FormEncoding.encode document, ?_, FormEncoding.decode?_encode document⟩
  rw [FormEncoding.pieces_addPair]
  rfl

theorem EndsWith.document_unique {parameters document document' : Text} {own own' : List Text}
    (h : EndsWith parameters own document) (h' : EndsWith parameters own' document') :
    document = document' := by
  obtain ⟨value, hpairs, hvalue⟩ := h
  obtain ⟨value', hpairs', hvalue'⟩ := h'
  have hlast := (List.append_inj' (hpairs.symm.trans hpairs') rfl).2
  rw [List.append_cancel_left (List.singleton_inj.1 hlast), hvalue'] at hvalue
  exact (Option.some.inj hvalue).symm

namespace Client

section
variable {lib : Libraries} {uri : Text} {url : lib.Url}

theorem request_of_address (hlib : lib.Documented) (h : lib.address uri = .ok url)
    (document : Text) :
    request lib ⟨uri⟩ document = .ok ("GET ".toList ++ lib.path url ++
      '?' :: FormEncoding.addPair (lib.query url) "query".toList document) := by
  have hresource := hlib.resource (lib.addPair url "query".toList document)
  rw [hlib.path_addPair, hlib.query_addPair] at hresource
  rw [request, h, List.append_assoc]
  exact congrArg (fun s => Except.ok ("GET ".toList ++ s)) hresource

theorem target_send {target document : Text} (h : request lib ⟨uri⟩ document = .ok target)
    {exchange : Exchange} (hexchange : exchange.Received) :
    (send lib ⟨uri⟩ document exchange).target = some target := by
  cases exchange with
  | unreachable why => cases hexchange
  | brokenOff why => simp only [send, h]
  | answered status body => simp only [send, h]

end

/-- The request for a document goes to the path of the address that the URI stands for. Of the
pairs in its query string the last one decodes to the document, and those before it are the
address's own, so no two documents give the same request. If the URI is plain, path and pairs are
those that are written in it, and its fragment has no part in the request. -/
theorem send_delivers {lib : Libraries} (hlib : lib.Documented) {uri : Text} {url : lib.Url}
    (husable : lib.address uri = .ok url) (document : Text) :
    ∃ parameters,
      (∀ exchange, exchange.Received → (send lib ⟨uri⟩ document exchange).target =
        some ("GET ".toList ++ lib.path url ++ '?' :: parameters)) ∧
      '#' ∉ parameters ∧
      EndsWith parameters (FormEncoding.pairs (lib.query url)) document ∧
      (∀ document' exchange exchange', exchange.Received → exchange'.Received →
        (send lib ⟨uri⟩ document' exchange').target = (send lib ⟨uri⟩ document exchange).target →
          document' = document) ∧
      ∀ u : Uri, u.Plain → u.text = uri →
        EndsWith parameters (FormEncoding.pairs u.query) document ∧
        ∀ fragment url', lib.address { u with fragment := fragment }.text = .ok url' →
          ∀ exchange, exchange.Received →
            (send lib ⟨{ u with fragment := fragment }.text⟩ document exchange).target =
              some ("GET ".toList ++ u.requestPath ++ '?' :: parameters) := by
  have hrequest := request_of_address hlib husable
  refine ⟨FormEncoding.addPair (lib.query url) "query".toList document,
    fun exchange => target_send (hrequest document),
    FormEncoding.hash_not_mem_addPair (hlib.encoded url).2 _ _, endsWith_addPair _ _, ?_, ?_⟩
  · intro document' exchange exchange' hreceived hreceived' hsame
    rw [target_send (hrequest document) hreceived, target_send (hrequest document') hreceived']
      at hsame
    have hparameters := (List.cons.inj (List.append_cancel_left (Option.some.inj hsame))).2
    have hends := endsWith_addPair (lib.query url) document'
    rw [hparameters] at hends
    exact hends.document_unique (endsWith_addPair (lib.query url) document)
  · rintro u hplain rfl
    obtain ⟨-, hquery⟩ := hlib.plain u hplain url husable
    rw [hquery]
    refine ⟨endsWith_addPair u.query document, fun fragment url' husable' exchange hreceived => ?_⟩
    -- the conditions of a plain URI do not mention the fragment
    have hplain' : { u with fragment := fragment : Uri }.Plain :=
      ⟨hplain.scheme, hplain.authority, hplain.path, hplain.segments, hplain.query⟩
    obtain ⟨hpath', hquery'⟩ := hlib.plain _ hplain' url' husable'
    rw [target_send (request_of_address hlib husable' document) hreceived, hpath', hquery']
    rfl

/-- A URI that has a pair `query` of its own, and an empty one behind it. -/
def ownQuery : Uri := ⟨"http".toList, "h:80".toList, [], some "a=1&query=x&".toList, some ['f']⟩

theorem send_delivers_ownQuery :
    ownQuery.text = "http://h:80?a=1&query=x&#f".toList ∧
      (∃ url, Libraries.plain.address ownQuery.text = .ok url) ∧
      ∃ parameters,
        (send .plain ⟨ownQuery.text⟩ "query\x7bé(k:\"& +%#\")\x7d".toList
          (.answered 200 [])).target = some ("GET /?".toList ++ parameters) ∧
        '#' ∉ parameters ∧
        EndsWith parameters ["a=1".toList, "query=x".toList, []]
          "query\x7bé(k:\"& +%#\")\x7d".toList := by
  have hplain : ownQuery.Plain := by decide +kernel
  have husable := Libraries.plain_address hplain
  obtain ⟨parameters, -, hhash, -, -, hwritten⟩ := send_delivers Libraries.documented_plain husable
    "query\x7bé(k:\"& +%#\")\x7d".toList
  obtain ⟨hends, htarget⟩ := hwritten ownQuery hplain rfl
  exact ⟨rfl, ⟨_, husable⟩, parameters, htarget _ _ husable (.answered 200 []) trivial, hhash, hends⟩

end Client

end QueryShorthand
