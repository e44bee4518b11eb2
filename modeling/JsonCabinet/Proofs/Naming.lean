import JsonCabinet.Proofs.Pages
import JsonCabinet.Proofs.Traces

/-!
# Names are never empty

An empty name is refused or stands for the default collection, which valid settings do not leave
empty when it may be meant, and an empty key is refused. So no operation brings an empty name into
contents that have none (`Contents.Named.effect`). Stores that share a file pass on to each other
only what is in their memory or in the file, and neither ever has one (`Site.Clean.turn`). Whatever
is listed can therefore be asked for by the name that it is listed under
(`Site.listed_documents_are_addressable`).
-/

namespace JsonCabinet

open Files

/-! ## Names that are meant -/

theorem Settings.meant_ne {s : Settings} {name : String} (hvalid : s.validate = .ok ())
    (hname : ¬(name = "" ∧ s.emptyNames = .reject)) : s.meant name ≠ "" := by
  unfold meant
  split
  · next hempty =>
    have hsubstitute : s.emptyNames = .substitute := by
      cases he : s.emptyNames with
      | substitute => rfl
      | reject => exact absurd ⟨hempty, he⟩ hname
    intro hdefault
    unfold validate at hvalid
    split at hvalid
    · cases hvalid
    · rw [if_pos ⟨hsubstitute, hdefault⟩] at hvalid
      cases hvalid
  · next hne => exact hne

/-- What is stored gets a collection and a key that are not empty. -/
theorem ne_empty_of_stored {s : Settings} {t : Contents} {op : Operation} {c k : String}
    {d : Document} (hvalid : s.validate = .ok ()) (hx : s.change? op = some (.stored c k d))
    (hok : (s.effect t op).answer.isOk = true) : c ≠ "" ∧ k ≠ "" := by
  cases op with
  | set name key e =>
    cases hx
    obtain ⟨hname, hkey⟩ := not_or.1 (Settings.not_refused_of_isOk hok)
    exact ⟨Settings.meant_ne hvalid hname, hkey⟩
  | delete | dropCollection | get | list | collections | flush => cases hx

/-! ## Contents without empty names -/

namespace Contents

/-- No collection and no key has the empty name. -/
structure Named (t : Contents) : Prop where
  collection_ne : ∀ c, t.contains c = true → c ≠ ""
  key_ne : ∀ c k d, t.document? c k = some d → k ≠ ""

theorem named_empty : empty.Named := ⟨fun _ h => (nomatch h), fun _ _ _ h => (nomatch h)⟩

theorem Named.merge {t u : Contents} (ht : t.Named) (hu : u.Named) : (t.merge u).Named where
  collection_ne c hc := ((contains_merge t u c).1 hc).elim (ht.collection_ne c) (hu.collection_ne c)
  key_ne c k d hd := by
    rw [document?_merge_eq, Option.or_eq_some_iff] at hd
    rcases hd with hd | ⟨-, hd⟩
    · exact hu.key_ne c k d hd
    · exact ht.key_ne c k d hd

/-- No operation brings in an empty name. -/
theorem Named.effect {s : Settings} {t : Contents} (h : t.Named) (hvalid : s.validate = .ok ())
    (op : Operation) : (s.effect t op).contents.Named := by
  by_cases hok : (s.effect t op).answer.isOk = true
  · cases hx : s.change? op with
    | none =>
      rw [contents_effect_of_no_change fun _ => hx]
      exact h
    | some x =>
      refine ⟨fun c hc => ?_, fun c k d hd => ?_⟩
      · rcases (contains_effect hx hok c).1 hc with hcreates | ⟨-, hc⟩
        · cases x with
          | stored c' k d =>
            obtain rfl : c' = c := hcreates
            exact (ne_empty_of_stored hvalid hx hok).1
          | removed | dropped => exact hcreates.elim
        · exact h.collection_ne c hc
      · rw [document?_effect hx hok] at hd
        split at hd
        · next hconcerns =>
          obtain rfl := Change.eq_stored_iff.2 ⟨hconcerns, hd⟩
          exact (ne_empty_of_stored hvalid hx hok).2
        · exact h.key_ne c k d hd
  · rw [contents_effect_of_no_change fun h => absurd h hok]
    exact h

end Contents

theorem Store.named_aware {s : Store} {file? : Option Contents} (h : s.contents.Named)
    (hfile : ∀ t ∈ file?, t.Named) (op : Operation) : (s.aware file? op).Named := by
  cases file? with
  | none => exact h
  | some t =>
    rcases Copies.knowing_eq s t op with he | he
    · rw [aware, he]
      exact h
    · rw [aware, he]
      exact h.merge (hfile t rfl)

/-! ## Sites -/

namespace Site

/-- The store has no file, or it has the one at this path, which is there. -/
def Based (fs : FileSystem) (p : Path) (s : Store) : Prop :=
  s.settings.backing = .memory ∨
    Has fs p s ∧ ∃ b, fs.node? (fs.place p) = some (.file b)

/-- A store that is opened has no file, or the one at this path. -/
def Event.Joins (fs : FileSystem) (p : Path) : Event → Prop
  | .opening settings =>
    settings.backing = .memory ∨ (Event.opening settings).Shares fs p
  | .act .. => True

/-- A store of valid settings without an empty name in its memory, and with no other file. -/
structure Joined (fs : FileSystem) (p : Path) (s : Store) : Prop where
  valid : s.settings.validate = .ok ()
  named : s.contents.Named
  based : Based fs p s

/-- There is no empty name in the file, nor in the memory of a store. -/
structure Clean (p : Path) (site : Site) : Prop where
  file : ∀ b, site.files.node? (site.files.place p) = some (.file b) →
    ∃ t, Snapshot.decode b = .ok t ∧ t.Named
  stores : ∀ s ∈ site.stores, Joined site.files p s

variable {p : Path} {site : Site} {fs fs' : FileSystem} {s s' : Store} {number : Nat}
  {op : Operation}

theorem clean_of_empty (h : ∀ b, fs.node? (fs.place p) = some (.file b) → b = []) :
    Clean p ⟨fs, []⟩ where
  file b hb := by
    obtain rfl := h b hb
    exact ⟨.empty, rfl, Contents.named_empty⟩
  stores _ h := nomatch h

theorem Event.Joins.keeps {event : Event} (h : event.Joins fs p) (hk : fs.Keeps fs') :
    event.Joins fs' p := by
  cases event with
  | opening settings => exact h.imp_right fun hshares => Event.Shares.keeps hshares hk
  | act number op => trivial

/-- A store that is there stands on its own, but for what its file holds. -/
theorem Clean.alone (h : Clean p site) (hs : s ∈ site.stores) :
    ∃ file?, Store.Alone file? s site.files ∧ ∀ t ∈ file?, t.Named := by
  rcases (h.stores s hs).based with hmemory | ⟨⟨q, hq, hplace, hnames⟩, b, hb⟩
  · exact ⟨none, .memory hmemory, fun _ ht => nomatch ht⟩
  · obtain ⟨t, ht, hnamed⟩ := h.file b hb
    have hcontent : site.files.contentOf q = .ok b :=
      FileSystem.contentOf_eq_ok_iff.2 ⟨hnames, hplace ▸ hb⟩
    refine ⟨some t, .file q hq (Snapshot.load_eq_ok_iff.2 ⟨b, hcontent, ht⟩), fun u hu => ?_⟩
    obtain rfl := Option.mem_some.1 hu
    exact hnamed

/-- An operation leaves the files alone, or puts the snapshot of its store at the place of the
path. -/
theorem Based.perform (h : Based fs p s) (hclear : NoFileError (s.perform fs op).result) :
    fs.Keeps (s.perform fs op).files ∧ ((s.perform fs op).files = fs ∨
      (s.perform fs op).files.node? ((s.perform fs op).files.place p) =
        some (.file (s.perform fs op).store.snapshot)) := by
  rcases h with hmemory | ⟨⟨q, hq, hplace, hnames⟩, b, hb⟩
  · rw [Store.perform_memory hmemory]
    exact ⟨.refl fs, .inl rfl⟩
  · have hmoves := Store.perform_moves hq hclear
    have hcontent : fs.contentOf q = .ok b :=
      FileSystem.contentOf_eq_ok_iff.2 ⟨hnames, hplace ▸ hb⟩
    cases hw : op.writes s.settings.flush (s.perform fs op).result with
    | false =>
      rw [hmoves.unwritten hw]
      exact ⟨.refl fs, .inl rfl⟩
    | true =>
      have hr := hmoves.rewrites hw
      have hk := hr.keeps (hplace ▸ hb)
      refine ⟨hk, .inr ?_⟩
      rw [hk.place_eq, ← hplace]
      exact hr.here

theorem Joined.keeps (h : Joined fs p s) (hk : fs.Keeps fs')
    (hfile : ∀ b, fs.node? (fs.place p) = some (.file b) →
      ∃ b', fs'.node? (fs'.place p) = some (.file b'))
    (hsettings : s'.settings = s.settings) (hnamed : s'.contents.Named) : Joined fs' p s' where
  valid := by rw [hsettings, h.valid]
  named := hnamed
  based := by
    rcases h.based with hmemory | ⟨hhas, b, hb⟩
    · exact .inl (hsettings ▸ hmemory)
    · exact .inr ⟨hhas.keeps hk hsettings, hfile b hb⟩

theorem Clean.act (h : Clean p site) (hclear : (site.turn (.act number op)).Clear) :
    Clean p (site.turn (.act number op)).after ∧
      site.files.Keeps (site.turn (.act number op)).after.files := by
  cases hs : site.stores[number]? with
  | none =>
    rw [turn_of_none hs]
    exact ⟨h, .refl _⟩
  | some s =>
    have hmem := List.mem_of_getElem? hs
    have hjoined := h.stores s hmem
    have hanswer : NoFileError (s.perform site.files op).result :=
      hclear _ (by rw [turn_of_some hs])
    obtain ⟨file?, halone, hfile⟩ := h.alone hmem
    obtain ⟨-, hstore, -⟩ := halone.perform hanswer
    have hnamed : (s.perform site.files op).store.contents.Named := by
      rw [hstore]
      exact (Store.named_aware hjoined.named hfile op).effect hjoined.valid op
    obtain ⟨hk, hfiles⟩ := hjoined.based.perform hanswer
    -- The file of the other stores is still there, though it may have been written over.
    have hpresent : ∀ b, site.files.node? (site.files.place p) = some (.file b) →
        ∃ b', (s.perform site.files op).files.node? ((s.perform site.files op).files.place p) =
          some (.file b') := by
      intro b hb
      rcases hfiles with hsame | hwritten
      · rw [hsame]
        exact ⟨b, hb⟩
      · exact ⟨_, hwritten⟩
    rw [turn_of_some hs]
    refine ⟨⟨fun b hb => ?_, fun other hother => ?_⟩, hk⟩
    · rcases hfiles with hsame | hwritten
      · exact h.file b (hsame ▸ hb)
      · rw [hwritten] at hb
        cases hb
        exact ⟨_, Snapshot.decode_snapshot _ _, hnamed⟩
    · rcases List.mem_or_eq_of_mem_set hother with hold | rfl
      · exact (h.stores other hold).keeps hk hpresent rfl (h.stores other hold).named
      · exact hjoined.keeps hk hpresent (by rw [hstore]) hnamed

theorem joined_of_openWith {settings : Settings}
    (ho : Store.openWith settings fs = (.ok s, fs')) (hk : fs.Keeps fs')
    (hjoins : (Event.opening settings).Joins fs p)
    (hfile : ∀ b, fs'.node? (fs'.place p) = some (.file b) →
      ∃ t, Snapshot.decode b = .ok t ∧ t.Named) : Joined fs' p s := by
  have hvalid := Store.validate_of_openWith ho
  rcases hjoins with hmemory | ⟨q, hq, hplace⟩
  · rw [Store.openWith_memory hvalid hmemory] at ho
    cases ho
    exact ⟨hvalid, Contents.named_empty, .inl hmemory⟩
  · obtain ⟨hsettings, hl⟩ := Store.openWith_eq_ok hq ho
    obtain ⟨b, hb, hdecode⟩ := Snapshot.load_eq_ok_iff.1 hl
    obtain ⟨hnames, hnode⟩ := FileSystem.contentOf_eq_ok_iff.1 hb
    have hplace' : fs'.place q = fs'.place p := by rw [hk.place_eq, hk.place_eq, hplace]
    rw [hplace'] at hnode
    obtain ⟨t, ht, hnamed⟩ := hfile b hnode
    rw [hdecode] at ht
    cases ht
    exact ⟨hsettings ▸ hvalid, hnamed, .inr ⟨⟨q, hsettings ▸ hq, hplace', hnames⟩, b, hnode⟩⟩

/-- Opening adds no name: a store in memory begins empty, and any other takes over the file. -/
theorem Clean.opening {settings : Settings} (h : Clean p site)
    (hjoins : (Event.opening settings).Joins site.files p) :
    Clean p (site.turn (.opening settings)).after ∧
      site.files.Keeps (site.turn (.opening settings)).after.files := by
  have hg := Store.grows_openWith settings site.files
  cases ho : Store.openWith settings site.files with
  | mk opened fs =>
    rw [ho] at hg
    have hfile : ∀ b, fs.node? (fs.place p) = some (.file b) →
        ∃ t, Snapshot.decode b = .ok t ∧ t.Named := by
      intro b hb
      rw [hg.keeps.place_eq] at hb
      rcases hg.content_eq hb with hold | ⟨-, rfl⟩
      · exact h.file b hold
      · exact ⟨.empty, rfl, Contents.named_empty⟩
    have hpresent : ∀ b, site.files.node? (site.files.place p) = some (.file b) →
        ∃ b', fs.node? (fs.place p) = some (.file b') := by
      intro b hb
      rw [hg.keeps.place_eq]
      exact ⟨b, hg.node?_eq hb⟩
    have hold : ∀ s ∈ site.stores, Joined fs p s := fun s hs =>
      (h.stores s hs).keeps hg.keeps hpresent rfl (h.stores s hs).named
    cases opened with
    | error e =>
      rw [turn_of_not_opened ho]
      exact ⟨⟨hfile, hold⟩, hg.keeps⟩
    | ok s =>
      rw [turn_of_opened ho]
      refine ⟨⟨hfile, fun other hother => ?_⟩, hg.keeps⟩
      rcases List.mem_append.1 hother with hother | hother
      · exact hold other hother
      · obtain rfl := List.mem_singleton.1 hother
        exact joined_of_openWith ho hg.keeps hjoins hfile

theorem Clean.turn {event : Event} (h : Clean p site) (hjoins : event.Joins site.files p)
    (hclear : (site.turn event).Clear) :
    Clean p (site.turn event).after ∧ site.files.Keeps (site.turn event).after.files := by
  cases event with
  | opening settings => exact h.opening hjoins
  | act number op => exact h.act hclear

theorem clean_of_history {events : List Event}
    (hempty : ∀ b, fs.node? (fs.place p) = some (.file b) → b = [])
    (hjoins : ∀ event ∈ events, event.Joins fs p)
    (hclear : ∀ turn ∈ history ⟨fs, []⟩ events, turn.Clear) :
    ∀ turn ∈ history ⟨fs, []⟩ events, Clean p turn.after := by
  intro turn hturn
  have hkept : Clean p turn.after ∧ fs.Keeps turn.after.files := by
    refine (invariant_at_turns (I := fun site => Clean p site ∧ fs.Keeps site.files)
      (fun site event hevent hclear h => ?_) hclear ⟨clean_of_empty hempty, .refl fs⟩ hturn).2
    obtain ⟨hclean, hk⟩ := h
    obtain ⟨hafter, hkeeps⟩ := hclean.turn ((hjoins event hevent).keeps hk) hclear
    exact ⟨hafter, hk.trans hkeeps⟩
  exact hkept.1

/-! ## What is listed can be asked for -/

/-- Every key on a page of a collection that a store names has a document, which the store gives to
whoever asks for it, and which could be removed instead. -/
def Addressable (site : Site) : Prop :=
  ∀ number names c limit page listing k,
    (site.perform number .collections).1 = some (.ok (.names names)) → c ∈ names →
    (site.perform number (.list c limit page)).1 = some (.ok (.page listing)) →
    k ∈ listing.items.names →
    (∃ d, (site.perform number (.get c k)).1 = some (.ok (.document (some d)))) ∧
      ((site.turn (.act number (.delete c k))).Clear →
        (site.perform number (.delete c k)).1 = some (.ok (.removed true)))

/-- A key on a page of a collection has a document there. -/
theorem document?_of_listed {settings : Settings} {t : Contents} {c k : String}
    {limit page : Int} {listing : ListPage} (hc : c ≠ "")
    (hlist : (settings.effect t (.list c limit page)).answer = .ok (.page listing))
    (hk : k ∈ listing.items.names) : ∃ d, t.document? c k = some d := by
  have hname : settings.collectionName c = .ok c := by
    rw [Settings.collectionName, if_pos hc]
  simp only [Settings.effect, Settings.listEffect, hname] at hlist
  split at hlist
  · cases hlist
  · next table htable =>
    cases hlist
    obtain ⟨d, hd⟩ := Table.mem_names_iff.1 hk
    exact ⟨d, by rw [Contents.document?, htable]; exact PageWindow.get?_of_slice hd⟩

section Answers

variable {file? : Option Contents} {c k : String} {d : Document}

/-- A document in memory can be read, unless the file has another one in its place. -/
theorem get_of_document? (h : Store.Alone file? s fs) (hc : c ≠ "") (hk : k ≠ "")
    (hd : s.contents.document? c k = some d) :
    ∃ d', (s.perform fs (.get c k)).result = .ok (.document (some d')) := by
  have ha : s.settings.address c k = .ok (c, k) := Store.address_of_ne hc hk
  cases h with
  | memory hmemory =>
    refine ⟨d, ?_⟩
    rw [Store.perform_memory hmemory, effect_get ha]
    simp only [Contents.contains_of_document? hd, hd, if_true]
  | file q hq hl =>
    next t =>
    obtain ⟨-, hresult⟩ := Store.perform_get_of_load hq hc hk hl
    cases ht : t.document? c k with
    | some d' => exact ⟨d', hresult d' (Contents.document?_merge ht)⟩
    | none =>
      refine ⟨d, hresult d ?_⟩
      rw [Contents.document?_merge_eq, ht, Option.none_or, hd]

theorem delete_of_document? (h : Store.Alone file? s fs) (hc : c ≠ "") (hk : k ≠ "")
    (hd : s.contents.document? c k = some d)
    (hclear : NoFileError (s.perform fs (.delete c k)).result) :
    (s.perform fs (.delete c k)).result = .ok (.removed true) := by
  obtain ⟨hresult, -⟩ := h.perform hclear
  rw [hresult, Store.effectOn, Store.aware_of_not_takesOver id]
  obtain ⟨table, htable, hkey⟩ := Option.bind_eq_some_iff.1 hd
  have hthere : table.contains k = true := by rw [Table.contains, hkey]; rfl
  simp only [Settings.effect, Settings.deleteEffect, Store.address_of_ne hc hk, htable, hthere,
    if_true]

end Answers

/-- Neither names nor keys that are listed are empty, so they mean themselves. -/
theorem Clean.addressable (h : Clean p site) : site.Addressable := by
  intro number names c limit page listing k hnames hc hlist hk
  cases hs : site.stores[number]? with
  | none => simp only [perform, hs, reduceCtorEq] at hnames
  | some s =>
    have hmem := List.mem_of_getElem? hs
    obtain ⟨hvalid, hnamed, -⟩ := h.stores s hmem
    obtain ⟨file?, halone, -⟩ := h.alone hmem
    simp only [turn_of_some hs, Turn.Clear, perform, hs, Option.some.injEq] at hnames hlist ⊢
    have hcontains : s.contents.contains c = true := by
      have hcollections : (s.perform site.files .collections).result =
        .ok (.names s.contents.names) := rfl
      rw [hcollections] at hnames
      cases hnames
      obtain ⟨table, htable⟩ := Table.mem_names_iff.1 hc
      rw [Table.contains, htable]
      rfl
    have hc := hnamed.collection_ne c hcontains
    have hanswer : (s.settings.effect s.contents (.list c limit page)).answer =
        .ok (.page listing) := by
      obtain ⟨hresult, -⟩ := halone.perform (noFileError_of_isOk (by rw [hlist]; rfl))
      rwa [hresult, Store.effectOn, Store.aware_of_not_takesOver id] at hlist
    obtain ⟨d, hd⟩ := document?_of_listed hc hanswer hk
    have hk := hnamed.key_ne c k d hd
    exact ⟨get_of_document? halone hc hk hd,
      fun hclear => delete_of_document? halone hc hk hd (hclear _ rfl)⟩

/-- Stores of any valid settings, in memory or with one file that is missing or blank at first, in
whatever order they are opened and act: neither a store nor the file ever has an empty name, and
whatever a store lists it can also read and remove by the name that it is listed under. -/
theorem listed_documents_are_addressable {events : List Event}
    (hempty : ∀ b, fs.node? (fs.place p) = some (.file b) → b = [])
    (hjoins : ∀ event ∈ events, event.Joins fs p)
    (hclear : ∀ turn ∈ history ⟨fs, []⟩ events, turn.Clear) :
    ∀ turn ∈ history ⟨fs, []⟩ events,
      (∀ s ∈ turn.after.stores, s.contents.Named) ∧
      (∀ b, turn.after.files.node? (turn.after.files.place p) = some (.file b) →
        ∃ t, Snapshot.decode b = .ok t ∧ t.Named) ∧
      turn.after.Addressable := by
  intro turn hturn
  have hclean := clean_of_history hempty hjoins hclear turn hturn
  exact ⟨fun s hs => (hclean.stores s hs).named, hclean.file, hclean.addressable⟩

/-- A store in memory, and two that share a file but not what an empty name stands for. -/
def substitutes : List Event :=
  [.opening Settings.initial, .opening Store.inDatabase,
    .opening { Store.inDatabase with flush := .manual, defaultCollection := "other" },
    .act 0 (.set "" "k" Store.one), .act 1 (.set "" "k" Store.one),
    .act 2 (.set "" "k" Store.one), .act 2 (.get "default" "k"), .act 2 .flush]

theorem substitutes_are_addressable :
    (∀ turn ∈ history ⟨Store.withDatabase, []⟩ substitutes,
      ∀ s ∈ turn.after.stores, s.contents.Named) ∧
    ∀ turn ∈ history ⟨Store.withDatabase, []⟩ substitutes, turn.after.Addressable := by
  have hempty : ∀ b, Store.withDatabase.node? (Store.withDatabase.place Store.database) =
      some (.file b) → b = [] := fun _ hb => Store.eq_nil_of_node?_withDatabase hb
  have hjoins : ∀ event ∈ substitutes, event.Joins Store.withDatabase Store.database := by
    intro event hevent
    simp only [substitutes, List.mem_cons, List.not_mem_nil, or_false] at hevent
    rcases hevent with rfl | rfl | rfl | rfl | rfl | rfl | rfl | rfl
    · exact .inl rfl
    · exact .inr ⟨Store.database, rfl, rfl⟩
    · exact .inr ⟨Store.database, rfl, rfl⟩
    all_goals trivial
  have hclear : ∀ turn ∈ history ⟨Store.withDatabase, []⟩ substitutes, turn.Clear :=
    clear_of_all_isOk (by cbv)
  have hturns := listed_documents_are_addressable hempty hjoins hclear
  exact ⟨fun turn hturn => (hturns turn hturn).1, fun turn hturn => (hturns turn hturn).2.2⟩

end Site

end JsonCabinet
