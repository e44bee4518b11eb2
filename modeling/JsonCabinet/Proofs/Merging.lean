import JsonCabinet.Proofs.Changes
import JsonCabinet.Proofs.Steps

/-!
# Merging

Merging is told by what is found afterwards, so its laws are those of a choice between two things
found (`Contents.mergeLaws`). The order in which collections and documents are gone through does not
matter: when entries with different names are taken into a table one by one, each is found as if it
had been the only one (`Table.get?_takeIn`), at both levels (`Contents.absorb_eq_merge`). A read of
a store with a file merges what the file shows, and to merge that once more changes nothing, so a
read settles what those after it do for as long as the file shows the same
(`Store.Idles.eq_of_knows`). A read whose names are refused settles nothing, since it does not look
at the file (`Store.refused_read_takes_nothing_over`).
-/

namespace JsonCabinet

open Files

/-! ## Tables -/

namespace Table

variable {α β : Type}

/-- Takes entries into a table one after the other. What is under a name then is made by `join` of
what was there before. -/
def takeIn (join : Option α → β → α) (t : Table α) (l : List (String × β)) : Table α :=
  l.foldl (fun t e => t.insert e.1 (join (t.get? e.1) e.2)) t

/-- The list goes through the table in any order: it has each name once, with something that stands
for the value there. -/
structure Lists (StandsFor : β → α → Prop) (l : List (String × β)) (t : Table α) : Prop where
  names : (l.map (·.1)).Perm t.names
  values : ∀ e ∈ l, ∃ v, t.get? e.1 = some v ∧ StandsFor e.2 v

theorem lists_entries {StandsFor : α → α → Prop} (h : ∀ v, StandsFor v v) (t : Table α) :
    Lists StandsFor t.entries t where
  names := .refl _
  values e he := ⟨e.2, mem_entries_iff.1 he, h e.2⟩

theorem empty_unionWith (combine : α → α → α) (t : Table α) : empty.unionWith combine t = t :=
  eq_of_entries (by simp only [unionWith, empty, unionEntries])

theorem unionWith_empty (combine : α → α → α) (t : Table α) : t.unionWith combine empty = t := by
  refine eq_of_entries ?_
  show unionEntries combine t.entries [] = t.entries
  cases t.entries <;> rw [unionEntries]

/-- Of entries with different names each is found as if it had been the only one. -/
theorem get?_takeIn (join : Option α → β → α) (t : Table α) {l : List (String × β)}
    (hl : (l.map (·.1)).Nodup) (name : String) :
    (t.takeIn join l).get? name =
      ((l.lookup name).map (join (t.get? name))).or (t.get? name) := by
  induction l generalizing t with
  | nil => rfl
  | cons e l ih =>
    obtain ⟨hfresh, hl⟩ := List.nodup_cons.1 hl
    have hfirst : t.takeIn join (e :: l) =
        (t.insert e.1 (join (t.get? e.1) e.2)).takeIn join l := rfl
    rw [hfirst, ih _ hl, get?_insert, lookup_cons_eq]
    by_cases h : name = e.1
    · have hnone : l.lookup e.1 = none := by
        refine List.lookup_eq_none_iff.2 fun m hm => ?_
        have hne : e.1 ≠ m.1 := fun he => hfresh (List.mem_map.2 ⟨m, hm, he.symm⟩)
        simpa using hne
      rw [h, hnone, if_pos rfl, if_pos rfl]
      rfl
    · rw [if_neg h, if_neg h]

/-- To take in what stands for a table is to unite with that table. -/
theorem takeIn_eq_unionWith {StandsFor : β → α → Prop} {join : Option α → β → α}
    {combine : α → α → α} {l : List (String × β)} {u : Table α} (h : Lists StandsFor l u)
    (hnew : ∀ x v, StandsFor x v → join none x = v)
    (hold : ∀ old x v, StandsFor x v → join (some old) x = combine old v) (t : Table α) :
    t.takeIn join l = t.unionWith combine u := by
  have hl : (l.map (·.1)).Nodup := h.names.nodup_iff.2 u.nodup_names
  refine eq_of_get? fun name => ?_
  rw [get?_takeIn join t hl, get?_unionWith]
  cases hx : l.lookup name with
  | none =>
    have hu : u.get? name = none := by
      by_contra hv
      obtain ⟨v, hv⟩ := Option.ne_none_iff_exists'.1 hv
      obtain ⟨e, he, rfl⟩ := List.mem_map.1 (h.names.mem_iff.2 (mem_names_iff.2 ⟨v, hv⟩))
      simpa using List.lookup_eq_none_iff.1 hx e he
    rw [hu]
    cases t.get? name <;> rfl
  | some x =>
    obtain ⟨v, hv, hx⟩ := h.values _ (mem_of_lookup_eq_some hx)
    rw [hv]
    cases t.get? name with
    | none => exact congrArg some (hnew x v hx)
    | some old => exact congrArg some (hold old x v hx)

end Table

/-! ## Contents -/

namespace Contents

/-- The contents after collections have been taken in one after the other, and the documents of each
one after the other. -/
def absorb (t : Contents) (l : List (String × List (String × Document))) : Contents :=
  Table.takeIn (fun table? ds => (table?.getD .empty).takeIn (fun _ d => d) ds) t l

/-- The list goes through the collections in any order, and through the documents of each in any
order. -/
def Lists (l : List (String × List (String × Document))) (t : Contents) : Prop :=
  Table.Lists (Table.Lists Eq) l t

theorem exists_lists (t : Contents) : ∃ l, Lists l t := by
  refine ⟨t.entries.map fun e => (e.1, e.2.entries), ?_, fun e he => ?_⟩
  · rw [List.map_map]
    exact .refl _
  · obtain ⟨⟨name, table⟩, hm, rfl⟩ := List.mem_map.1 he
    exact ⟨table, Table.mem_entries_iff.1 hm, Table.lists_entries (fun _ => rfl) table⟩

theorem absorb_eq_merge {l : List (String × List (String × Document))} {u : Contents}
    (h : Lists l u) (t : Contents) : t.absorb l = t.merge u := by
  have htable {ds : List (String × Document)} {table : Collection} (hds : Table.Lists Eq ds table)
      (old : Collection) :
      old.takeIn (fun _ d => d) ds = old.unionWith (fun _ theirs => theirs) table :=
    Table.takeIn_eq_unionWith hds (fun _ _ hd => hd) (fun _ _ _ hd => hd) old
  refine Table.takeIn_eq_unionWith h (fun ds table hds => ?_) (fun old ds table hds => ?_) t
  · exact (htable hds .empty).trans (Table.empty_unionWith _ table)
  · exact htable hds old

theorem contains_merge_eq (t u : Contents) (name : String) :
    (t.merge u).contains name = (t.contains name || u.contains name) := by
  rw [Bool.eq_iff_iff, contains_merge, Bool.or_eq_true]

theorem merge_assoc (t u v : Contents) : (t.merge u).merge v = t.merge (u.merge v) := by
  refine eq_of_document? (fun name => ?_) fun name key => ?_
  · simp only [contains_merge_eq, Bool.or_assoc]
  · simp only [document?_merge_eq, Option.or_assoc]

theorem merge_merge_self (t u : Contents) : (t.merge u).merge u = t.merge u := by
  rw [merge_assoc, merge_self]

/-- The laws of merging. -/
structure MergeLaws (t u v : Contents) : Prop where
  listed : ∃ l, Lists l u
  anyOrder : ∀ l, Lists l u → t.absorb l = t.merge u
  collection : ∀ name, (t.merge u).contains name = true ↔
    t.contains name = true ∨ u.contains name = true
  document : ∀ name key, (t.merge u).document? name key =
    (u.document? name key).or (t.document? name key)
  assoc : (t.merge u).merge v = t.merge (u.merge v)
  self : t.merge t = t
  emptyFirst : Contents.empty.merge t = t
  emptySecond : t.merge .empty = t
  again : (t.merge u).merge u = t.merge u

theorem mergeLaws (t u v : Contents) : MergeLaws t u v where
  listed := exists_lists u
  anyOrder _ h := absorb_eq_merge h t
  collection := contains_merge t u
  document := document?_merge_eq t u
  assoc := merge_assoc t u v
  self := merge_self t
  emptyFirst := Table.empty_unionWith _ t
  emptySecond := Table.unionWith_empty _ t
  again := merge_merge_self t u

end Contents

/-! ## Reads -/

theorem Snapshot.load_congr {fs fs' : FileSystem} {p : Path}
    (h : fs'.contentOf p = fs.contentOf p) : load fs' p = load fs p := by
  rw [load, load, h]

namespace Store

variable {s s' : Store} {fs fs' : FileSystem} {p : Path} {c k : String}

theorem get_of_address_error {e : StoreError} (ha : s.settings.address c k = .error e)
    (fs : FileSystem) : s.perform fs (.get c k) = ⟨.error e, s, fs⟩ := by
  simp only [perform, get, ha]
  rfl

theorem get_of_load_error {address : String × String} {e : StoreError}
    (hp : s.settings.backing = .file p) (ha : s.settings.address c k = .ok address)
    (hl : Snapshot.load fs p = .error e) : s.perform fs (.get c k) = ⟨.error e, s, fs⟩ := by
  have hreload : s.reload fs = .error e := by
    simp only [reload, path?_eq hp, hl]
  exact perform_get_of_reload_error ha hreload

/-- A read answers for what is in memory once the file has been merged. -/
theorem get_of_load {address : String × String} {t : Contents}
    (hp : s.settings.backing = .file p) (ha : s.settings.address c k = .ok address)
    (hl : Snapshot.load fs p = .ok t) :
    s.perform fs (.get c k) = ⟨(s.settings.effect (s.contents.merge t) (.get c k)).answer,
      ⟨s.settings, s.contents.merge t⟩, fs⟩ := by
  have hreload : s.reload fs = .ok ⟨s.settings, s.contents.merge t⟩ := by
    simp only [reload, path?_eq hp, hl]
  rw [perform_get_eq ha hreload, conclude, effect_get ha]
  rfl

/-- A read leaves memory as it is, or merges what the file shows. -/
theorem store_get (hp : s.settings.backing = .file p) (fs : FileSystem) (c k : String) :
    (s.perform fs (.get c k)).store = s ∨ ∃ t, Snapshot.load fs p = .ok t ∧
      (s.perform fs (.get c k)).store = ⟨s.settings, s.contents.merge t⟩ := by
  cases ha : s.settings.address c k with
  | error e =>
    rw [get_of_address_error ha]
    exact .inl rfl
  | ok address =>
    cases hl : Snapshot.load fs p with
    | error e =>
      rw [get_of_load_error hp ha hl]
      exact .inl rfl
    | ok t =>
      rw [get_of_load hp ha hl]
      exact .inr ⟨t, rfl, rfl⟩

theorem contains_get {name : String} (hp : s.settings.backing = .file p)
    (h : s.contents.contains name = true) :
    (s.perform fs (.get c k)).store.contents.contains name = true := by
  obtain hs | ⟨t, -, hs⟩ := store_get hp fs c k
  · rwa [hs]
  · rw [hs]
    exact (Contents.contains_merge _ _ _).2 (.inl h)

theorem document?_get {name key : String} (hp : s.settings.backing = .file p)
    (h : (s.contents.document? name key).isSome = true) :
    ((s.perform fs (.get c k)).store.contents.document? name key).isSome = true := by
  obtain hs | ⟨t, -, hs⟩ := store_get hp fs c k
  · rwa [hs]
  · rw [hs, Contents.document?_merge_eq, Option.isSome_or, h, Bool.or_true]

/-! ### What a read settles -/

/-- The store goes on by reads, and by operations that leave what is in memory as it is, while its
file shows the same to each of them. -/
inductive Idles (p : Path) (shown : Except FileError Bytes) : Store → Store → Prop
  | refl (s : Store) : Idles p shown s s
  | read {s s' : Store} (fs : FileSystem) (c k : String) (hshown : fs.contentOf p = shown)
    (hrest : Idles p shown (s.perform fs (.get c k)).store s') : Idles p shown s s'
  | other {s s' : Store} (fs : FileSystem) (op : Operation) (hshown : fs.contentOf p = shown)
    (hsame : (s.perform fs op).store.contents = s.contents)
    (hrest : Idles p shown (s.perform fs op).store s') : Idles p shown s s'

/-- What could be loaded is in memory. -/
def Knows (s : Store) (loaded : Except StoreError Contents) : Prop :=
  ∀ t, loaded = .ok t → s.contents.merge t = s.contents

theorem Idles.settings_eq {shown : Except FileError Bytes} (h : Idles p shown s s') :
    s'.settings = s.settings := by
  induction h with
  | refl => rfl
  | read fs c k _ _ ih => rw [ih, perform_settings]
  | other fs op _ _ _ ih => rw [ih, perform_settings]

theorem get_of_knows (hp : s.settings.backing = .file p) (h : s.Knows (Snapshot.load fs p))
    (c k : String) : (s.perform fs (.get c k)).store = s := by
  obtain hs | ⟨t, hl, hs⟩ := store_get hp fs c k
  · exact hs
  · rw [hs, h t hl]

theorem knows_get (hp : s.settings.backing = .file p)
    (hr : ¬(Operation.get c k).Refused s.settings) :
    (s.perform fs (.get c k)).store.Knows (Snapshot.load fs p) := by
  intro t hl
  rw [get_of_load hp (Settings.address_of_not_refused hr) hl]
  exact Contents.merge_merge_self _ _

/-- A store that knows its file does not change while it idles. -/
theorem Idles.eq_of_knows (h : Idles p (fs.contentOf p) s s') (hp : s.settings.backing = .file p)
    (hknows : s.Knows (Snapshot.load fs p)) : s' = s := by
  induction h with
  | refl => rfl
  | @read s s' fs' c k hshown _ ih =>
    have hsame : (s.perform fs' (.get c k)).store = s :=
      get_of_knows hp (Snapshot.load_congr hshown ▸ hknows) c k
    rw [hsame] at ih
    exact ih hp hknows
  | @other s s' fs' op _ hsame _ ih =>
    have hstore : (s.perform fs' op).store = s :=
      calc (s.perform fs' op).store
          = ⟨(s.perform fs' op).store.settings, (s.perform fs' op).store.contents⟩ := rfl
        _ = s := by rw [perform_settings, hsame]
    rw [hstore] at ih
    exact ih hp hknows

/-- What a read of a store with its file at this path does to memory, and what it means for the
reads after it, if the file shows the same to them and nothing is changed in memory. -/
structure Settles (p : Path) (s : Store) (fs : FileSystem) (c k : String) : Prop where
  merged : ¬(Operation.get c k).Refused s.settings → ∀ t, Snapshot.load fs p = .ok t →
    (s.perform fs (.get c k)).store.contents = s.contents.merge t
  collections : ∀ name, s.contents.contains name = true →
    (s.perform fs (.get c k)).store.contents.contains name = true
  documents : ∀ name key, (s.contents.document? name key).isSome = true →
    ((s.perform fs (.get c k)).store.contents.document? name key).isSome = true
  same : ∀ s' fs', Idles p (fs.contentOf p) (s.perform fs (.get c k)).store s' →
    fs'.contentOf p = fs.contentOf p →
    s'.perform fs' (.get c k) = ⟨(s.perform fs (.get c k)).result, s', fs'⟩
  any : ¬(Operation.get c k).Refused s.settings →
    ∀ s' fs', Idles p (fs.contentOf p) (s.perform fs (.get c k)).store s' →
      fs'.contentOf p = fs.contentOf p → ∀ c' k', (s'.perform fs' (.get c' k')).store = s'

theorem get_same (hp : s.settings.backing = .file p)
    (h : Idles p (fs.contentOf p) (s.perform fs (.get c k)).store s')
    (hshown : fs'.contentOf p = fs.contentOf p) :
    s'.perform fs' (.get c k) = ⟨(s.perform fs (.get c k)).result, s', fs'⟩ := by
  have hload := Snapshot.load_congr hshown
  have hsettings : s'.settings = s.settings := h.settings_eq.trans (s.perform_settings fs _)
  by_cases hr : (Operation.get c k).Refused s.settings
  · obtain ⟨why, ha⟩ := Settings.address_of_refused hr
    rw [get_of_address_error (hsettings ▸ ha), get_of_address_error ha]
  · have ha := Settings.address_of_not_refused hr
    obtain rfl := h.eq_of_knows ((s.perform_settings fs _).symm ▸ hp) (knows_get hp hr)
    cases hl : Snapshot.load fs p with
    | error e =>
      rw [get_of_load_error hp ha hl] at hsettings ⊢
      exact get_of_load_error hp ha (hload.trans hl)
    | ok t =>
      have hagain : (⟨s.settings, s.contents.merge t⟩ : Store).perform fs' (.get c k) = _ :=
        get_of_load hp ha (hload.trans hl)
      rw [Contents.merge_merge_self] at hagain
      rw [get_of_load hp ha hl]
      exact hagain

/-- Merging has its laws, and so a read of a store with a file loses nothing and settles what the
reads after it find. -/
theorem file_is_merged_once (t u v : Contents) (hp : s.settings.backing = .file p)
    (fs : FileSystem) (c k : String) : Contents.MergeLaws t u v ∧ Settles p s fs c k where
  left := Contents.mergeLaws t u v
  right :=
    { merged := fun hr t hl => by rw [get_of_load hp (Settings.address_of_not_refused hr) hl]
      collections := fun _ => contains_get hp
      documents := fun _ _ => document?_get hp
      same := fun _ _ h hshown => get_same hp h hshown
      any := fun hr s' fs' h hshown c' k' => by
        obtain rfl := h.eq_of_knows ((s.perform_settings fs _).symm ▸ hp) (knows_get hp hr)
        have hp' : (s.perform fs (.get c k)).store.settings.backing = .file p := by
          rwa [perform_settings]
        exact get_of_knows hp' (Snapshot.load_congr hshown ▸ knows_get hp hr) c' k' }

/-! ### A file with one document -/

/-- One document, under `k` in the collection `c`. -/
def oneDocument : Contents := Contents.empty.put "c" "k" one

/-- The files once somebody else has stored the document. -/
def withDocument : FileSystem :=
  ⟨.directory "work" (.file "db.json" (Snapshot.encode .pretty oneDocument) .nil) .nil, ["work"],
    none⟩

/-- A store that was opened when its file was empty. -/
def unaware : Store := ⟨inDatabase, .empty⟩

theorem load_withDocument : Snapshot.load withDocument database = .ok oneDocument := by
  have hcontent : withDocument.contentOf database = .ok (Snapshot.encode .pretty oneDocument) := by
    cbv
  exact Snapshot.load_of_content hcontent

/-- A read brings the document into memory. -/
theorem get_withDocument :
    let read := unaware.perform withDocument (.get "c" "k")
    read.result = .ok (.document (some one)) ∧
      read.store.contents.document? "c" "k" = some one := by
  have hread := perform_get_of_load (rfl : unaware.settings.backing = .file database)
    (by decide : "c" ≠ "") (by decide : "k" ≠ "") load_withDocument
  have hfound : (unaware.contents.merge oneDocument).document? "c" "k" = some one :=
    Contents.document?_merge (Contents.document?_put .empty "c" "k" one)
  exact ⟨hread.2 one hfound, by rw [hread.1, hfound]⟩

theorem document_is_merged_once : unaware.settings.backing = .file database ∧
    (unaware.perform withDocument (.get "c" "k")).store.perform withDocument (.get "c" "k") =
      ⟨.ok (.document (some one)), (unaware.perform withDocument (.get "c" "k")).store,
        withDocument⟩ := by
  have hsettles := (file_is_merged_once oneDocument .empty .empty
    (rfl : unaware.settings.backing = .file database) withDocument "c" "k").2
  exact ⟨rfl, get_withDocument.1 ▸ hsettles.same _ withDocument (.refl _) rfl⟩

/-- A read whose names are refused does not look at the file, so the next one may still find more
there than is in memory. -/
theorem refused_read_takes_nothing_over :
    let first := unaware.perform withDocument (.get "c" "")
    unaware.settings.backing = .file database ∧
      first = ⟨.error (.validation .emptyKey), unaware, withDocument⟩ ∧
      (first.store.perform first.files (.get "c" "k")).store ≠ first.store := by
  have hfirst : unaware.perform withDocument (.get "c" "") =
      ⟨.error (.validation .emptyKey), unaware, withDocument⟩ :=
    get_of_address_error (by cbv) withDocument
  refine ⟨rfl, hfirst, fun h => ?_⟩
  rw [hfirst] at h
  have hfound := get_withDocument.2
  rw [h] at hfound
  cases hfound

end Store

end JsonCabinet
