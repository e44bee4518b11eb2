import JsonCabinet.Proofs.Changes
import JsonCabinet.Proofs.Sharing

/-!
# Copies of a file

Stores that share a file, without the file system: the contents of the file, and what each store has
of them in its memory (`Copies`). An event changes these by rules that mention no path and no byte
(`Copies.respond`). Under a single key, copies that agree go on to do so while only those who agree
write (`Copies.Agree.act`). As long as nothing fails in the file system, a site does just what the
rules say (`Site.Shows.turn`).
-/

namespace JsonCabinet

open Files

/-! ## Rules -/

/-- What the store has in memory when the operation has its effect: a read takes over the file
first, unless its names are refused. -/
def Store.knowing (s : Store) (file : Contents) : Operation → Contents
  | .get c k => match s.settings.address c k with
    | .error _ => s.contents
    | .ok _ => s.contents.merge file
  | _ => s.contents

/-- The contents of a file, and the stores that have it. -/
structure Copies where
  file : Contents
  stores : List Store

namespace Copies

/-- An operation of one of the stores, which writes what it has then if a snapshot is due. -/
def act (x : Copies) (number : Nat) (s : Store) (op : Operation) :
    Except StoreError Answer × Copies :=
  let e := s.settings.effect (s.knowing x.file op) op
  (e.answer, ⟨if op.writes s.settings.flush e.answer then e.contents else x.file,
    x.stores.set number ⟨s.settings, e.contents⟩⟩)

/-- A store that is opened gets a copy of the file. -/
def respond (x : Copies) : Site.Event → Option (Except StoreError Answer) × Copies
  | .opening settings => match settings.validate with
    | .error f => (some (.error (.config (.fault f))), x)
    | .ok _ => (some (.ok .done), ⟨x.file, x.stores ++ [⟨settings, x.file⟩]⟩)
  | .act number op => match x.stores[number]? with
    | none => (none, x)
    | some s => (some (x.act number s op).1, (x.act number s op).2)

end Copies

namespace Store

variable {s : Store} {fs : FileSystem} {q : Path} {t : Contents} {op : Operation}

/-- An operation on a store whose file can be loaded has its effect on what the store knows. -/
theorem perform_knowing (hq : s.settings.backing = .file q) (hl : Snapshot.load fs q = .ok t) :
    s.perform fs op = conclude ⟨s.settings, s.knowing t op⟩ fs op := by
  cases op with
  | get c k =>
    have hreload : s.reload fs = .ok ⟨s.settings, s.contents.merge t⟩ := by
      simp only [reload, path?_eq hq, hl]
    cases ha : s.settings.address c k with
    | error e =>
      simp only [knowing, ha]
      exact perform_get_of_error ha
    | ok address =>
      rw [perform_get_eq ha hreload]
      simp only [knowing, ha]
  | _ => exact perform_eq fun _ _ hop => by cases hop

/-- So its answer, and what is in memory then, are told by what it knows. -/
theorem perform_of_load (hq : s.settings.backing = .file q) (hl : Snapshot.load fs q = .ok t)
    (h : NoFileError (s.perform fs op).result) :
    (s.perform fs op).result = (s.settings.effect (s.knowing t op) op).answer ∧
      (s.perform fs op).store =
        ⟨s.settings, (s.settings.effect (s.knowing t op) op).contents⟩ := by
  have hq' : (⟨s.settings, s.knowing t op⟩ : Store).settings.backing = .file q := hq
  rw [perform_knowing hq hl] at h ⊢
  exact ⟨(conclude_eq hq' h).1, conclude_store _ fs op⟩

end Store

/-! ## Copies that agree -/

namespace Copies

variable {x : Copies} {c k : String} {v? : Option Document} {number : Nat} {s : Store}
  {op : Operation} {who : Nat → Prop}

/-- Somebody has the document under this key: the file, or one of the stores. -/
def Finds (x : Copies) (c k : String) (d : Document) : Prop :=
  x.file.document? c k = some d ∨ ∃ s ∈ x.stores, s.contents.document? c k = some d

/-- The file has just this under the key, and so have these stores. -/
structure Agree (c k : String) (v? : Option Document) (who : Nat → Prop) (x : Copies) :
    Prop where
  file : x.file.document? c k = v?
  stores : ∀ i s, who i → x.stores[i]? = some s → s.contents.document? c k = v?

/-- What a store knows is what it has, unless it takes over the file. -/
theorem knowing_eq (s : Store) (t : Contents) (op : Operation) :
    s.knowing t op = s.contents ∨ s.knowing t op = s.contents.merge t := by
  unfold Store.knowing
  split
  · split
    · exact .inl rfl
    · exact .inr rfl
  · exact .inl rfl

theorem document?_knowing {t : Contents} (ht : t.document? c k = v?)
    (hs : s.contents.document? c k = v?) (op : Operation) :
    (s.knowing t op).document? c k = v? := by
  rcases knowing_eq s t op with h | h
  · rw [h, hs]
  · rw [h, Contents.document?_merge_eq, ht, hs, Option.or_self]

/-- What is found under a key after an operation is what was known of it, unless it was changed. -/
theorem document?_act (x : Copies) (s : Store) (op : Operation) (c k : String) :
    let e := s.settings.effect (s.knowing x.file op) op
    e.contents.document? c k = (s.knowing x.file op).document? c k ∨
      ∃ y, s.settings.made? op e.answer = some y ∧ y.Concerns c k ∧
        e.contents.document? c k = y.outcome := by
  intro e
  cases hy : s.settings.made? op e.answer with
  | none => exact .inl (by rw [contents_effect_of_not_made hy])
  | some y =>
    have hd := document?_effect_of_made hy c k
    by_cases hc : y.Concerns c k
    · exact .inr ⟨y, rfl, hc, by rw [hd, if_pos hc]⟩
    · exact .inl (by rw [hd, if_neg hc])

/-! ### What one store does -/

/-- A document that is found after an operation was found before it, or was stored by it. -/
theorem finds_act {d : Document} (hs : s ∈ x.stores) (h : (x.act number s op).2.Finds c k d) :
    x.Finds c k d ∨ s.settings.made? op (x.act number s op).1 = some (.stored c k d) := by
  have hknown : (s.knowing x.file op).document? c k = some d → x.Finds c k d := by
    intro hd
    rcases knowing_eq s x.file op with he | he
    · exact .inr ⟨s, hs, he ▸ hd⟩
    · rw [he, Contents.document?_merge_eq, Option.or_eq_some_iff] at hd
      rcases hd with hd | ⟨-, hd⟩
      · exact .inl hd
      · exact .inr ⟨s, hs, hd⟩
  have hmine : (s.settings.effect (s.knowing x.file op) op).contents.document? c k = some d →
      x.Finds c k d ∨ s.settings.made? op (x.act number s op).1 = some (.stored c k d) := by
    intro hd
    rcases document?_act x s op c k with he | ⟨y, hy, hc, he⟩
    · exact .inl (hknown (he ▸ hd))
    · rw [he] at hd
      exact .inr (hy.trans (congrArg some (Change.eq_stored_iff.2 ⟨hc, hd⟩)))
  rcases h with h | ⟨other, hother, h⟩
  · simp only [act] at h
    split at h
    · exact hmine h
    · exact .inl (.inl h)
  · rcases List.mem_or_eq_of_mem_set hother with hold | rfl
    · exact .inl (.inr ⟨other, hold, h⟩)
    · exact hmine h

/-- Copies that agree go on to do so while only those who agree write and nothing is changed under
the key, and one that takes over a file with a document under it agrees as well. -/
theorem Agree.act (h : x.Agree c k v? who) (hs : x.stores[number]? = some s)
    (hother : ∀ y, s.settings.made? op (x.act number s op).1 = some y → ¬y.Concerns c k)
    (hw : op.writes s.settings.flush (x.act number s op).1 = true → who number) :
    (x.act number s op).2.Agree c k v? fun i =>
      who i ∨ i = number ∧ v?.isSome ∧ s.knowing x.file op = s.contents.merge x.file := by
  have hmine : (who number ∨ v?.isSome ∧ s.knowing x.file op = s.contents.merge x.file) →
      (s.settings.effect (s.knowing x.file op) op).contents.document? c k = v? := by
    intro hwho
    rcases document?_act x s op c k with he | ⟨y, hy, hc, -⟩
    · rw [he]
      rcases hwho with hwho | ⟨hv, hk⟩
      · exact document?_knowing h.file (h.stores number s hwho hs) op
      · obtain ⟨d, rfl⟩ := Option.isSome_iff_exists.1 hv
        rw [hk, Contents.document?_merge h.file]
    · exact absurd hc (hother y hy)
  refine ⟨?_, fun i s' hi hs' => ?_⟩
  · simp only [Copies.act]
    split
    · next hwrites => exact hmine (.inl (hw hwrites))
    · exact h.file
  · by_cases hne : i = number
    · subst hne
      have hlt := (List.getElem?_eq_some_iff.1 hs).1
      simp only [Copies.act, List.getElem?_set_self hlt, Option.some.injEq] at hs'
      subst hs'
      exact hmine (hi.imp_right And.right)
    · simp only [Copies.act, List.getElem?_set_ne (Ne.symm hne)] at hs'
      exact h.stores i s' (hi.resolve_right fun hi => hne hi.1) hs'

/-- A change that is written is in the file, and some of the stores may have the same. -/
theorem agree_of_change {y : Change}
    (hy : s.settings.made? op (x.act number s op).1 = some y) (hc : y.Concerns c k)
    (hw : op.writes s.settings.flush (x.act number s op).1 = true) :
    (x.act number s op).2.Agree c k y.outcome fun i =>
      ∀ s', (x.act number s op).2.stores[i]? = some s' → s'.contents.document? c k = y.outcome := by
  refine ⟨?_, fun i s' hi hs' => hi s' hs'⟩
  have hd := document?_effect_of_made hy c k
  rw [if_pos hc] at hd
  simp only [act] at hw ⊢
  rw [if_pos hw, hd]

/-! ### One more store -/

theorem finds_append {d : Document} {settings : Settings}
    (h : (⟨x.file, x.stores ++ [⟨settings, x.file⟩]⟩ : Copies).Finds c k d) : x.Finds c k d := by
  rcases h with h | ⟨s, hs, h⟩
  · exact .inl h
  · rcases List.mem_append.1 hs with hs | hs
    · exact .inr ⟨s, hs, h⟩
    · obtain rfl := List.mem_singleton.1 hs
      exact .inl h

theorem Agree.append (h : x.Agree c k v? who) (settings : Settings) :
    Agree c k v? (fun i => who i ∨ i = x.stores.length)
      ⟨x.file, x.stores ++ [⟨settings, x.file⟩]⟩ := by
  refine ⟨h.file, fun i s hi hs => ?_⟩
  rw [List.getElem?_append] at hs
  split at hs
  · next hlt => exact h.stores i s (hi.resolve_right (Nat.ne_of_lt hlt)) hs
  · obtain rfl := List.mem_singleton.1 (List.mem_of_getElem? hs)
    exact h.file

end Copies

/-! ## Sites -/

namespace Site

variable {p : Path} {x : Copies} {site : Site}

/-- The site has these copies of the file at this path, which is there once there are stores. -/
structure Shows (p : Path) (x : Copies) (site : Site) : Prop where
  stores_eq : x.stores = site.stores
  held : Snapshot.Held site.files p x.file
  has : ∀ s ∈ site.stores, Has site.files p s
  present : site.stores ≠ [] → ∃ b, site.files.node? (site.files.place p) = some (.file b)

theorem shows_of_empty {fs : FileSystem}
    (h : ∀ b, fs.node? (fs.place p) = some (.file b) → b = []) :
    Shows p ⟨.empty, []⟩ ⟨fs, []⟩ where
  stores_eq := rfl
  held := Snapshot.held_empty h
  has _ hs := nomatch hs
  present h := absurd rfl h

/-- What a turn does is what the rules say, and every directory stays. -/
structure Turn.ByRules (p : Path) (x : Copies) (turn : Turn) : Prop where
  answer : turn.answer = (x.respond turn.event).1
  after : Shows p (x.respond turn.event).2 turn.after
  keeps : turn.before.files.Keeps turn.after.files

section Openings

variable {settings : Settings} {fs : FileSystem}

theorem turn_of_opened {s : Store} (ho : Store.openWith settings site.files = (.ok s, fs)) :
    site.turn (.opening settings) =
      ⟨site, .opening settings, some (.ok .done), ⟨fs, site.stores ++ [s]⟩⟩ := by
  simp only [turn, respond, openStore, ho]
  rfl

theorem turn_of_not_opened {e : StoreError}
    (ho : Store.openWith settings site.files = (.error e, fs)) :
    site.turn (.opening settings) =
      ⟨site, .opening settings, some (.error e), ⟨fs, site.stores⟩⟩ := by
  simp only [turn, respond, openStore, ho]
  rfl

theorem noFileError_of_opening (h : (site.turn (.opening settings)).Clear) :
    NoFileError (Store.openWith settings site.files).1 := by
  cases ho : Store.openWith settings site.files with
  | mk opened fs =>
    cases opened with
    | error e =>
      rw [turn_of_not_opened ho] at h
      intro why hwhy
      cases hwhy
      exact h _ rfl why rfl
    | ok s => exact noFileError_of_isOk rfl

end Openings

theorem Shows.opening {settings : Settings} (h : Shows p x site)
    (hshares : (Event.opening settings).Shares site.files p)
    (hclear : (site.turn (.opening settings)).Clear) :
    (site.turn (.opening settings)).ByRules p x := by
  obtain ⟨q, hq, hplace⟩ := hshares
  cases hvalid : settings.validate with
  | error f =>
    have ho : Store.openWith settings site.files = (.error (.config (.fault f)), site.files) := by
      simp only [Store.openWith, hvalid]
    rw [turn_of_not_opened ho]
    refine ⟨?_, ?_, .refl _⟩
    · simp only [Copies.respond, hvalid]
    · simpa only [Copies.respond, hvalid] using h
  | ok =>
    have hg := Store.grows_openWith settings site.files
    obtain ⟨fs, ho, hl⟩ :=
      Store.openWith_of_held hvalid hq hplace h.held (noFileError_of_opening hclear)
    rw [ho] at hg
    obtain ⟨b, hb, -⟩ := Snapshot.load_eq_ok_iff.1 hl
    obtain ⟨hnames, hn⟩ := FileSystem.contentOf_eq_ok_iff.1 hb
    have hplace' : fs.place q = fs.place p := by
      rw [hg.keeps.place_eq, hg.keeps.place_eq, hplace]
    rw [turn_of_opened ho]
    refine ⟨?_, ?_, hg.keeps⟩
    · simp only [Copies.respond, hvalid]
    · simp only [Copies.respond, hvalid]
      refine ⟨?_, h.held.grows hg, fun s hs => ?_, fun _ => ⟨b, hplace' ▸ hn⟩⟩
      · rw [h.stores_eq]
      · rcases List.mem_append.1 hs with hs | hs
        · exact (h.has s hs).keeps hg.keeps rfl
        · obtain rfl := List.mem_singleton.1 hs
          exact ⟨q, hq, hplace', hnames⟩

/-- One of the stores is another one now, and the file may be written. -/
theorem Shows.settle {number : Nat} {s s' : Store} {t : Contents} {fs : FileSystem}
    (h : Shows p x site) (hs : s ∈ site.stores) (hsettings : s'.settings = s.settings)
    (hk : site.files.Keeps fs) (ht : Snapshot.Held fs p t)
    (hb : ∃ b, fs.node? (fs.place p) = some (.file b)) :
    Shows p ⟨t, x.stores.set number s'⟩ (site.settle number s' fs) where
  stores_eq := by rw [h.stores_eq]; rfl
  held := ht
  has other hother := by
    rcases List.mem_or_eq_of_mem_set hother with hold | rfl
    · exact (h.has other hold).keeps hk rfl
    · exact (h.has s hs).keeps hk hsettings
  present _ := hb

/-- What an operation does to the file and to its own store is what the rules say. -/
theorem Shows.perform {number : Nat} {op : Operation} {s : Store} (h : Shows p x site)
    (hs : s ∈ site.stores) (hclear : NoFileError (s.perform site.files op).result) :
    (s.perform site.files op).result = (x.act number s op).1 ∧
      Shows p (x.act number s op).2
        (site.settle number (s.perform site.files op).store (s.perform site.files op).files) ∧
      site.files.Keeps (s.perform site.files op).files := by
  obtain ⟨q, hq, hplace, hnames⟩ := h.has s hs
  obtain ⟨b, hb⟩ := h.present (List.ne_nil_of_mem hs)
  have hcontent : site.files.contentOf q = .ok b :=
    FileSystem.contentOf_eq_ok_iff.2 ⟨hnames, hplace ▸ hb⟩
  have hmoves := Store.perform_moves hq hclear
  obtain ⟨hresult, hstore⟩ := Store.perform_of_load hq (h.held.load_eq hplace hcontent) hclear
  refine ⟨hresult, ?_⟩
  simp only [Copies.act]
  rw [← hresult, ← hstore]
  cases hw : op.writes s.settings.flush (s.perform site.files op).result with
  | true =>
    have hr := hmoves.rewrites hw
    have hk := hr.keeps (FileSystem.contentOf_eq_ok_iff.1 hcontent).2
    have hp : (s.perform site.files op).files.place q =
        (s.perform site.files op).files.place p := by
      rw [hk.place_eq, hk.place_eq, hplace]
    have hload : Snapshot.load (s.perform site.files op).files q =
        .ok (s.perform site.files op).store.contents :=
      Snapshot.load_of_content (FileSystem.contentOf_of_keeps hk hcontent hr.here)
    have hheld := (Snapshot.held_of_load hload).of_place hp
    have hfile : ∃ b, (s.perform site.files op).files.node?
        ((s.perform site.files op).files.place p) = some (.file b) :=
      ⟨_, by rw [← hp, hk.place_eq]; exact hr.here⟩
    rw [hstore] at hheld
    exact ⟨h.settle hs hmoves.settings_eq hk hheld hfile, hk⟩
  | false =>
    rw [hmoves.unwritten hw]
    exact ⟨h.settle hs hmoves.settings_eq (.refl _) h.held ⟨b, hb⟩, .refl _⟩

theorem Shows.act {number : Nat} {op : Operation} (h : Shows p x site)
    (hclear : (site.turn (.act number op)).Clear) :
    (site.turn (.act number op)).ByRules p x := by
  cases hs : site.stores[number]? with
  | none =>
    have hx : x.respond (.act number op) = (none, x) := by
      simp only [Copies.respond, h.stores_eq, hs]
    rw [turn_of_none hs]
    exact ⟨by rw [hx], by rw [hx]; exact h, .refl _⟩
  | some s =>
    have hx : x.respond (.act number op) =
        (some (x.act number s op).1, (x.act number s op).2) := by
      simp only [Copies.respond, h.stores_eq, hs]
    obtain ⟨hresult, hafter, hk⟩ := h.perform (List.mem_of_getElem? hs)
      (hclear _ (by rw [turn_of_some hs]))
    rw [turn_of_some hs]
    exact ⟨by rw [hx, ← hresult], by rw [hx]; exact hafter, hk⟩

theorem Shows.turn {event : Event} (h : Shows p x site) (hshares : event.Shares site.files p)
    (hclear : (site.turn event).Clear) : (site.turn event).ByRules p x := by
  cases event with
  | opening settings => exact h.opening hshares hclear
  | act number op => exact h.act hclear

end Site

end JsonCabinet
