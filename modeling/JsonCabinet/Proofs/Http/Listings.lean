import JsonCabinet.Proofs.Canonical
import JsonCabinet.Proofs.Http.Calls
import JsonCabinet.Proofs.Pages
import JsonCabinet.Proofs.Text.Integer

/-!
# Pages as they are sent

A page is sent as one JSON object, whose numbers and documents are put side by side as texts. As
each of these is a value on its own, the object can be read in one way only
(`HasMembers.unique`), so what is read out of it is what was put in: the keys and the documents of
the page, the size of the collection, and the numbers that were asked for
(`showsPage_writePage`).
-/

namespace JsonCabinet

open Files Json Grammar

/-! ## Objects of documents -/

/-- The text is one object in UTF-8 with just these members, in this order, each value as it
stands. -/
def HasMembers (s : Bytes) (ms : List (Bytes × Bytes)) : Prop :=
  WellFormed (Object Spelled Snapshot.Verbatim) ms s

section Members

variable {s : Bytes} {ms ms' : List (Bytes × Bytes)}

theorem hasMembers_iff : HasMembers s ms ↔ ∃ l : List (String × Document),
    l.map (viewMember Bytes.ofString Document.bytes) = ms ∧
      Object Key (fun d v => v = d.bytes) l s := by
  rw [HasMembers, wellFormed_object]
  exact (views_key.object Snapshot.views_document) ms s

/-- A text has one list of members. -/
theorem HasMembers.unique (h : HasMembers s ms) (h' : HasMembers s ms') : ms' = ms := by
  obtain ⟨l, rfl, hl⟩ := hasMembers_iff.1 h
  obtain ⟨l', rfl, hl'⟩ := hasMembers_iff.1 h'
  have hread {l : List (String × Document)} (hl : Object Key (fun d v => v = d.bytes) l s) :
      (Reader.object Document.reader).readAll s = .ok l :=
    Document.gives_reader.object.readAll
      ⟨[], s, [], spaces_nil, hl, spaces_nil, (List.append_nil s).symm⟩
  obtain rfl := Except.ok.inj ((hread hl).symm.trans (hread hl'))
  rfl

theorem HasMembers.exists_document (h : HasMembers s ms) : ∃ d : Document, d.bytes = s := by
  obtain ⟨hobject, text, rfl⟩ := h
  have hvalue := hobject.isValue (fun _ _ hq => hq.inner) fun _ _ hv => hv.2
  obtain ⟨d, rfl⟩ := Document.exists_document hvalue
  exact ⟨d, rfl⟩

/-- An object is written of its members, if their values are written already. -/
theorem hasMembers_writeObject {l : List (String × Bytes)}
    (h : ∀ m ∈ l, WellFormed Snapshot.Verbatim m.2 m.2) :
    HasMembers (Layout.compact.writeObject l) (l.map (viewMember Bytes.ofString id)) := by
  have hobject : Object Key (WellFormed Snapshot.Verbatim) l
      (Layout.compact.writeObject (writtenMembers id l)) :=
    object_writeObject Layout.isBlank_compact h
  have hid : Views id (WellFormed Snapshot.Verbatim) (WellFormed Snapshot.Verbatim) :=
    fun y v => by simp
  rw [writtenMembers, show (fun m : String × Bytes => (m.1, id m.2)) = id from rfl,
    List.map_id] at hobject
  rw [HasMembers, wellFormed_object]
  exact (views_key.object hid _ _).2 ⟨l, rfl, hobject⟩

theorem wellFormed_document (d : Document) : WellFormed Snapshot.Verbatim d.bytes d.bytes :=
  (Snapshot.views_document _ _).2 ⟨d, rfl, rfl⟩

theorem wellFormed_toString (n : Int) :
    WellFormed Snapshot.Verbatim (Bytes.ofString (toString n)) (Bytes.ofString (toString n)) :=
  ⟨⟨rfl, .number (Text.number_toString n)⟩, Bytes.isUtf8_ofString _⟩

end Members

namespace Http

/-! ## Numbers in a query -/

/-- The name is missing from these pairs, or it is there once with a decimal form of this integer
of 64 bits. -/
inductive Given (name : Bytes) : List (Bytes × Bytes) → Option Int → Prop
  | nil : Given name [] none
  | skip {pair : Bytes × Bytes} {pairs : List (Bytes × Bytes)} {n? : Option Int}
    (hne : pair.1 ≠ name) (hrest : Given name pairs n?) : Given name (pair :: pairs) n?
  | found {text : Bytes} {pairs : List (Bytes × Bytes)} {n : Int} (hn : Text.Decimal text n)
    (hrange : Word.leastSigned ≤ n ∧ n ≤ Word.greatestSigned) (hrest : Given name pairs none) :
    Given name ((name, text) :: pairs) (some n)

theorem takeAll_of_given {pairs : List (Bytes × Bytes)} {limit? page? : Option Int}
    (hlimit : Given (Bytes.ofString "limit") pairs limit?)
    (hpage : Given (Bytes.ofString "page") pairs page?) {params : ListParams}
    (hl : limit? = none ∨ params.limit = none) (hp : page? = none ∨ params.page = none) :
    params.takeAll pairs = .ok ⟨limit?.or params.limit, page?.or params.page⟩ := by
  have hother : Bytes.ofString "page" ≠ Bytes.ofString "limit" := fun h =>
    absurd (Bytes.ofString_injective h) (by decide)
  induction hlimit generalizing page? params with
  | nil =>
    cases hpage
    rfl
  | skip hne _ ih =>
    cases hpage with
    | skip hne' hpage =>
      rw [ListParams.takeAll, ListParams.take, if_neg hne, if_neg hne']
      exact ih hpage hl hp
    | found hn hrange hpage =>
      have hp : params.page = none := hp.resolve_left (Option.some_ne_none _)
      rw [ListParams.takeAll, ListParams.take, if_neg hother, if_pos rfl, hp,
        if_neg (by decide), Text.readInteger_eq_ok_iff.2 ⟨hn, hrange⟩]
      exact ih hpage hl (.inl rfl)
  | found hn hrange _ ih =>
    have hl : params.limit = none := hl.resolve_left (Option.some_ne_none _)
    cases hpage with
    | skip _ hpage =>
      rw [ListParams.takeAll, ListParams.take, if_pos rfl, hl, if_neg (by decide),
        Text.readInteger_eq_ok_iff.2 ⟨hn, hrange⟩]
      exact ih hpage (.inl rfl) hp

/-- A query that gives its numbers is read. -/
theorem ofQuery_of_given {query : Bytes} {limit? page? : Option Int}
    (hlimit : Given (Bytes.ofString "limit") (formPairs query) limit?)
    (hpage : Given (Bytes.ofString "page") (formPairs query) page?) :
    ListParams.ofQuery query = .ok ⟨limit?, page?⟩ := by
  have h : ListParams.takeAll ⟨none, none⟩ (formPairs query) =
      .ok ⟨limit?.or none, page?.or none⟩ := takeAll_of_given hlimit hpage (.inr rfl) (.inr rfl)
  rwa [Option.or_none, Option.or_none] at h

/-! ## The text of a page -/

/-- The text is one document, and shows the page with these numbers and these items. -/
structure ShowsPage (listing : ListPage) (page limit : Int) (body items : Bytes) : Prop where
  parsed : ∃ d : Document, Document.parse d.text = .ok d ∧ d.bytes = body
  members_iff : ∀ ms, HasMembers body ms ↔ ms =
    [(Bytes.ofString "items", items),
      (Bytes.ofString "total", Bytes.ofString (toString listing.total)),
      (Bytes.ofString "page", Bytes.ofString (toString page)),
      (Bytes.ofString "limit", Bytes.ofString (toString limit))]
  items_iff : ∀ ms, HasMembers items ms ↔
    ms = listing.items.entries.map fun (k, d) => (Bytes.ofString k, d.bytes)
  ordered : (listing.items.entries.map fun (k, _) => Bytes.ofString k).Pairwise
    fun a b => a.precedes b = true
  decoded : (Reader.table Document.reader).readAll items = .ok listing.items
  snapshot : items = Snapshot.encodeCollection .compact listing.items

theorem hasMembers_items (items : Collection) :
    HasMembers (Snapshot.encodeCollection .compact items)
      (items.entries.map fun (k, d) => (Bytes.ofString k, d.bytes)) := by
  have hvalues : ∀ m ∈ items.entries.map fun (k, d) => (k, d.bytes),
      WellFormed Snapshot.Verbatim m.2 m.2 := fun m hm => by
    obtain ⟨e, -, rfl⟩ := List.mem_map.1 hm
    exact wellFormed_document e.2
  have hwritten := hasMembers_writeObject hvalues
  rw [List.map_map] at hwritten
  exact hwritten

theorem hasMembers_writePage (listing : ListPage) (page limit : Int) :
    HasMembers (writePage listing page limit)
      [(Bytes.ofString "items", Snapshot.encodeCollection .compact listing.items),
        (Bytes.ofString "total", Bytes.ofString (toString listing.total)),
        (Bytes.ofString "page", Bytes.ofString (toString page)),
        (Bytes.ofString "limit", Bytes.ofString (toString limit))] := by
  obtain ⟨d, hd⟩ := (hasMembers_items listing.items).exists_document
  have hitems := wellFormed_document d
  rw [hd] at hitems
  have hvalues : ∀ m ∈ listing.members ++ [("page", Bytes.ofString (toString page)),
      ("limit", Bytes.ofString (toString limit))], WellFormed Snapshot.Verbatim m.2 m.2 := by
    simp only [ListPage.members, List.cons_append, List.nil_append, List.forall_mem_cons]
    exact ⟨hitems, wellFormed_toString listing.total, wellFormed_toString page,
      wellFormed_toString limit, List.forall_mem_nil _⟩
  exact hasMembers_writeObject hvalues

/-- The items are read as the table that they were written of. -/
theorem readAll_items (items : Collection) :
    (Reader.table Document.reader).readAll (Snapshot.encodeCollection .compact items) =
      .ok items := by
  have hgives : (Reader.table Document.reader).Gives (Reader.table Document.reader).Restores :=
    fun _ _ h => h
  exact hgives.readAll ⟨[], _, [], spaces_nil, Snapshot.restores_encodeCollection .compact items,
    spaces_nil, (List.append_nil _).symm⟩

theorem showsPage_writePage (listing : ListPage) (page limit : Int) :
    ShowsPage listing page limit (writePage listing page limit)
      (Snapshot.encodeCollection .compact listing.items) where
  parsed := by
    obtain ⟨d, hd⟩ := (hasMembers_writePage listing page limit).exists_document
    exact ⟨d, d.parse_text, hd⟩
  members_iff ms :=
    ⟨fun h => (hasMembers_writePage listing page limit).unique h,
      fun h => h ▸ hasMembers_writePage listing page limit⟩
  items_iff ms :=
    ⟨fun h => (hasMembers_items listing.items).unique h,
      fun h => h ▸ hasMembers_items listing.items⟩
  ordered := by
    have hnames := Store.names_ordered listing.items
    rw [Table.names, List.pairwise_map] at hnames
    exact List.pairwise_map.2 hnames
  decoded := readAll_items listing.items
  snapshot := rfl

/-! ## Requests for a page -/

/-- A request for a page of a collection that exists is answered with the page that the store gives
for the numbers of the request, as one document. -/
theorem page_is_sent_as_it_is {s : HttpSettings} {store : Store} (fs : FileSystem)
    {request : Request} {c : String} {table : Collection} {limit? page? : Option Int}
    (hname : store.settings.collectionName s.collection = .ok c)
    (htable : store.contents.get? c = some table)
    (hreaches : request.Reaches s none) (hmethod : request.method = "GET")
    (hlimit : Given (Bytes.ofString "limit") (formPairs request.query) limit?)
    (hpage : Given (Bytes.ofString "page") (formPairs request.query) page?)
    (hbody : request.body.length ≤ bodyLimit) :
    let limit := limit?.getD s.defaultLimit
    let page := page?.getD 1
    ∃ listing body items, store.list s.collection limit page = .ok listing ∧
      listing.items = (PageWindow.clamp limit page store.settings.maxPageSize).slice table ∧
      listing.total = table.size ∧
      respond s Store.backend request (store, fs) = (.json body, store, fs) ∧
      ShowsPage listing page limit body items := by
  intro limit page
  have hplan := plan_of_reaches hreaches (ofQuery_of_given hlimit hpage) hbody
  have hlist := Store.list_eq hname htable limit page
  refine ⟨_, _, _, hlist, rfl, rfl, ?_, showsPage_writePage _ page limit⟩
  rw [respond, hplan, hmethod]
  show (listPlan s.collection limit page).run Store.backend (store, fs) = _
  simp only [listPlan, Plan.run, Store.backend, hlist]

/-! ### The second of three documents -/

def askingForSecond : Request := ⟨"GET", Bytes.ofString "/?page=2&limit=1", []⟩

theorem second_document_is_sent :
    Store.twoPerPage.settings.collectionName HttpSettings.initial.collection = .ok "default" ∧
      ∃ listing body items, Store.twoPerPage.list "default" 1 2 = .ok listing ∧
        listing.total = 3 ∧
        respond .initial Store.backend askingForSecond (Store.twoPerPage, .fresh) =
          (.json body, Store.twoPerPage, .fresh) ∧
        ShowsPage listing 2 1 body items := by
  have hname : Store.twoPerPage.settings.collectionName HttpSettings.initial.collection =
      .ok "default" := by cbv
  have htable : Store.twoPerPage.contents.get? "default" = some Store.threeDocuments := by
    rw [Store.twoPerPage, Table.get?_insert, if_pos rfl]
  have hreaches : askingForSecond.Reaches .initial none := by
    have hroute : Route.match? (normalBase HttpSettings.initial.basePath)
        (Target.ofBytes askingForSecond.target).path = some .collection := by cbv
    rw [Request.Reaches, hroute]
  have hpairs : formPairs askingForSecond.query =
      [(Bytes.ofString "page", [0x32]), (Bytes.ofString "limit", [0x31])] := by cbv
  have hlimit : Given (Bytes.ofString "limit") (formPairs askingForSecond.query) (some 1) := by
    rw [hpairs]
    have hone : Text.Decimal [0x31] 1 :=
      .bare ⟨List.cons_ne_nil _ _, List.forall_mem_singleton.2 rfl⟩
    exact .skip (by decide) (.found hone (by decide) .nil)
  have hpage : Given (Bytes.ofString "page") (formPairs askingForSecond.query) (some 2) := by
    rw [hpairs]
    have htwo : Text.Decimal [0x32] 2 :=
      .bare ⟨List.cons_ne_nil _ _, List.forall_mem_singleton.2 rfl⟩
    exact .found htwo (by decide) (.skip (by decide) .nil)
  obtain ⟨listing, body, items, hlist, -, htotal, hresponse, hshows⟩ :=
    page_is_sent_as_it_is .fresh hname htable hreaches rfl hlimit hpage (by decide)
  have hsize : Store.threeDocuments.size = 3 := by cbv
  exact ⟨hname, listing, body, items, hlist, htotal.trans hsize, hresponse, hshows⟩

end Http

end JsonCabinet
