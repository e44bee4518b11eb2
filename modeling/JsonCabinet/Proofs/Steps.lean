import JsonCabinet.Proofs.Effects
import JsonCabinet.Proofs.Files.Changes
import JsonCabinet.Proofs.Snapshots

/-!
# What one operation does to the file

An operation on a store with a file that meets no failure of the file system writes the whole
snapshot or leaves the files alone, and which of these it does can be told from its answer
(`perform_moves`). A file that holds a snapshot is loaded as the contents that the snapshot was
taken of (`load_of_content`), so a store can be opened on it (`openWith_of_decodes`).
-/

namespace JsonCabinet

open Files

/-- No call to the file system failed. -/
def NoFileError {α : Type} (r : Except StoreError α) : Prop := ∀ e, r ≠ .error (.io e)

theorem noFileError_of_isOk {α : Type} {r : Except StoreError α} (h : r.isOk = true) :
    NoFileError r := by
  rintro e rfl
  cases h

/-! ## Loading -/

namespace Snapshot

variable {fs fs' : FileSystem} {p : Path} {t : Contents}

theorem load_eq_ok_iff : load fs p = .ok t ↔ ∃ b, fs.contentOf p = .ok b ∧ decode b = .ok t := by
  unfold load
  constructor
  · intro h
    split at h
    · cases h
    · next hb =>
      split at h
      · cases h
      · next ht =>
        cases h
        exact ⟨_, hb, ht⟩
  · rintro ⟨b, hb, ht⟩
    simp only [hb, ht]

theorem load_of_content {format : Format} (h : fs.contentOf p = .ok (encode format t)) :
    load fs p = .ok t :=
  load_eq_ok_iff.2 ⟨_, h, decode_snapshot format t⟩

/-- A file that is at the place of a path holds these contents; where there is none, there is
nothing to hold. -/
structure Held (fs : FileSystem) (p : Path) (t : Contents) : Prop where
  decodes : ∀ b, fs.node? (fs.place p) = some (.file b) → decode b = .ok t
  missing : (∀ b, fs.node? (fs.place p) ≠ some (.file b)) → t = .empty

theorem held_empty (h : ∀ b, fs.node? (fs.place p) = some (.file b) → b = []) :
    Held fs p .empty where
  decodes b hb := by
    obtain rfl := h b hb
    rfl
  missing _ := rfl

theorem held_of_load (h : load fs p = .ok t) : Held fs p t := by
  obtain ⟨b, hb, ht⟩ := load_eq_ok_iff.1 h
  have hn := (FileSystem.contentOf_eq_ok_iff.1 hb).2
  refine ⟨fun b' hb' => ?_, fun hnone => absurd hn (hnone b)⟩
  rw [hn] at hb'
  cases hb'
  exact ht

/-- It does not matter how the path is spelled. -/
theorem Held.of_place {q : Path} (h : Held fs q t) (hplace : fs.place q = fs.place p) :
    Held fs p t where
  decodes := hplace ▸ h.decodes
  missing := hplace ▸ h.missing

theorem Held.grows (h : Held fs p t) (hg : fs.Grows fs') : Held fs' p t where
  decodes b hb := by
    rw [hg.keeps.place_eq] at hb
    rcases hg.content_eq hb with hold | ⟨hnone, rfl⟩
    · exact h.decodes b hold
    · have ht : t = .empty := h.missing fun b' hb' => by
        rw [hnone] at hb'
        cases hb'
      rw [ht]
      rfl
  missing hnone := h.missing fun b hb => hnone b (by rw [hg.keeps.place_eq, hg.node?_eq hb])

/-- A path with a content that leads to the place shows what is held there. -/
theorem Held.load_eq {q : Path} {b : Bytes} (h : Held fs p t) (hplace : fs.place q = fs.place p)
    (hb : fs.contentOf q = .ok b) : load fs q = .ok t :=
  load_eq_ok_iff.2 ⟨b, hb, h.decodes b (hplace ▸ (FileSystem.contentOf_eq_ok_iff.1 hb).2)⟩

end Snapshot

namespace Store

variable {s : Store} {fs : FileSystem} {p : Path}

/-! ## Opening -/

/-- Nothing is lost by opening a store, whether or not it can be opened. -/
theorem grows_openWith (settings : Settings) (fs : FileSystem) :
    fs.Grows (openWith settings fs).2 := by
  unfold openWith
  split
  · exact .refl fs
  · split
    · exact .refl fs
    · next p _ =>
      have hgrows := fs.grows_prepareFile p
      split
      · next hp => rwa [hp] at hgrows
      · next hp =>
        rw [hp] at hgrows
        split
        · exact hgrows
        · exact hgrows

theorem validate_of_openWith {settings : Settings} {fs' : FileSystem}
    (h : openWith settings fs = (.ok s, fs')) : settings.validate = .ok () := by
  unfold openWith at h
  split at h
  · cases h
  · assumption

theorem openWith_memory {settings : Settings} (hvalid : settings.validate = .ok ())
    (hp : settings.backing = .memory) :
    openWith settings fs = (.ok ⟨settings, .empty⟩, fs) := by
  simp only [openWith, hvalid, hp]

theorem openWith_eq_ok {settings : Settings} {fs' : FileSystem}
    (hp : settings.backing = .file p) (h : openWith settings fs = (.ok s, fs')) :
    s.settings = settings ∧ Snapshot.load fs' p = .ok s.contents := by
  unfold openWith at h
  simp only [hp] at h
  split at h
  · cases h
  · split at h
    · cases h
    · split at h
      · cases h
      · next hl =>
        cases h
        exact ⟨rfl, hl⟩

/-- A store can be opened on a file that decodes, and holds what the file holds. -/
theorem openWith_of_decodes {settings : Settings} {t : Contents}
    (hvalid : settings.validate = .ok ()) (hp : settings.backing = .file p)
    (hclear : NoFileError (openWith settings fs).1)
    (ht : ∀ b, (openWith settings fs).2.contentOf p = .ok b → Snapshot.decode b = .ok t) :
    ∃ fs', openWith settings fs = (.ok ⟨settings, t⟩, fs') ∧ Snapshot.load fs' p = .ok t := by
  unfold openWith at hclear ht ⊢
  simp only [hvalid, hp] at hclear ht ⊢
  cases hprep : fs.prepareFile p with
  | mk result fs' =>
    simp only [hprep] at hclear ht ⊢
    cases result with
    | error e => exact absurd rfl (hclear e)
    | ok =>
      simp only at hclear ht ⊢
      cases hb : fs'.contentOf p with
      | error e =>
        have hload : Snapshot.load fs' p = .error (.io e) := by
          simp only [Snapshot.load, hb]
        rw [hload] at hclear
        exact absurd rfl (hclear e)
      | ok b =>
        have hload : Snapshot.load fs' p = .ok t := by
          refine Snapshot.load_eq_ok_iff.2 ⟨b, hb, ht b ?_⟩
          split
          · exact hb
          · exact hb
        rw [hload]
        exact ⟨fs', rfl, hload⟩

/-- A store that is opened on a file holds what the file holds. -/
theorem openWith_of_held {settings : Settings} {t : Contents} {q : Path}
    (hvalid : settings.validate = .ok ()) (hq : settings.backing = .file q)
    (hplace : fs.place q = fs.place p) (h : Snapshot.Held fs p t)
    (hclear : NoFileError (openWith settings fs).1) :
    ∃ fs', openWith settings fs = (.ok ⟨settings, t⟩, fs') ∧ Snapshot.load fs' q = .ok t := by
  refine openWith_of_decodes hvalid hq hclear fun b hb => ?_
  have hgrows := grows_openWith settings fs
  have hn := (FileSystem.contentOf_eq_ok_iff.1 hb).2
  rw [hgrows.keeps.place_eq, hplace, ← hgrows.keeps.place_eq] at hn
  exact (h.grows hgrows).decodes b hn

/-! ## Writing -/

/-- What an operation that meets no failure of the file system can do to the file of a store. -/
structure Moves (p : Path) (s : Store) (fs : FileSystem) (op : Operation) (o : Outcome Answer) :
    Prop where
  settings_eq : o.store.settings = s.settings
  written : op.writes s.settings.flush o.result = true →
    fs.replaceFile p o.store.snapshot = (.ok (), o.files)
  unwritten : op.writes s.settings.flush o.result = false → o.files = fs

theorem path?_eq (hp : s.settings.backing = .file p) : s.path? = some p := by
  rw [path?, hp]

theorem deliver_eq {due : Bool} {answer : Except StoreError Answer}
    (hp : s.settings.backing = .file p) (h : NoFileError (s.deliver fs due answer).result) :
    ∃ fs', s.deliver fs due answer = ⟨answer, s, fs'⟩ ∧
      (due = true → fs.replaceFile p s.snapshot = (.ok (), fs')) ∧ (due = false → fs' = fs) := by
  cases due with
  | false => exact ⟨fs, rfl, fun hd => absurd hd (by decide), fun _ => rfl⟩
  | true =>
    simp only [deliver, persist, path?_eq hp, if_true] at h ⊢
    cases hr : fs.replaceFile p s.snapshot with
    | mk result fs' =>
      rw [hr] at h
      cases result with
      | ok => exact ⟨fs', rfl, fun _ => rfl, fun hd => absurd hd (by decide)⟩
      | error e => exact absurd rfl (h e)

theorem conclude_eq {op : Operation} (hp : s.settings.backing = .file p)
    (h : NoFileError (s.conclude fs op).result) :
    (s.conclude fs op).result = (s.settings.effect s.contents op).answer ∧
      Moves p s fs op (s.conclude fs op) := by
  have hp' : (⟨s.settings, (s.settings.effect s.contents op).contents⟩ : Store).settings.backing =
      .file p := hp
  rw [conclude] at h ⊢
  obtain ⟨fs', ho, hdue, hnot⟩ := deliver_eq hp' h
  rw [ho]
  exact ⟨rfl, rfl, hdue, hnot⟩

theorem get_moves {collection key : String} (hp : s.settings.backing = .file p)
    (h : NoFileError (s.perform fs (.get collection key)).result) :
    Moves p s fs (.get collection key) (s.perform fs (.get collection key)) := by
  cases ha : s.settings.address collection key with
  | error e =>
    simp only [perform, get, ha]
    exact ⟨rfl, fun hw => absurd hw Bool.false_ne_true, fun _ => rfl⟩
  | ok address =>
    cases hl : s.reload fs with
    | error e =>
      rw [perform_get_of_reload_error ha hl]
      exact ⟨rfl, fun hw => absurd hw Bool.false_ne_true, fun _ => rfl⟩
    | ok s' =>
      have hs := reload_settings hl
      rw [perform_get_eq ha hl] at h ⊢
      obtain ⟨-, hsettings, hwritten, hunwritten⟩ := conclude_eq (hs ▸ hp) h
      exact ⟨hsettings.trans hs, hs ▸ hwritten, hs ▸ hunwritten⟩

/-- An operation writes the snapshot of what it leaves in memory, or it leaves the files alone. -/
theorem perform_moves {op : Operation} (hp : s.settings.backing = .file p)
    (h : NoFileError (s.perform fs op).result) : Moves p s fs op (s.perform fs op) := by
  by_cases hget : ∃ c k, op = .get c k
  · obtain ⟨c, k, rfl⟩ := hget
    exact get_moves hp h
  · have heq : s.perform fs op = s.conclude fs op :=
      perform_eq fun c k hop => absurd ⟨c, k, hop⟩ hget
    rw [heq] at h ⊢
    exact (conclude_eq hp h).2

/-- The file that is written holds the snapshot of the store as it is then. -/
theorem Moves.rewrites {op : Operation} {o : Outcome Answer} (h : Moves p s fs op o)
    (hw : op.writes s.settings.flush o.result = true) :
    fs.Rewrites o.files (fs.place p) o.store.snapshot :=
  (FileSystem.rewrites_of_replaceFile (h.written hw)).2

theorem Moves.contentOf_eq {op : Operation} {o : Outcome Answer} {old : Bytes}
    (h : Moves p s fs op o) (hold : fs.contentOf p = .ok old)
    (hw : op.writes s.settings.flush o.result = true) :
    o.files.contentOf p = .ok o.store.snapshot := by
  have hr := h.rewrites hw
  have hk := hr.keeps (FileSystem.contentOf_eq_ok_iff.1 hold).2
  exact FileSystem.contentOf_of_keeps hk hold hr.here

/-! ## Reading and storing -/

theorem address_of_ne {settings : Settings} {collection key : String} (hc : collection ≠ "")
    (hk : key ≠ "") : settings.address collection key = .ok (collection, key) := by
  simp [Settings.address, Settings.collectionName, hc, hk]

/-- A read shows what has been taken over from the file, which is in memory then. -/
theorem perform_get_of_load {collection key : String} {t : Contents}
    (hp : s.settings.backing = .file p) (hc : collection ≠ "") (hk : key ≠ "")
    (ht : Snapshot.load fs p = .ok t) :
    (s.perform fs (.get collection key)).store.contents = s.contents.merge t ∧
      ∀ d, (s.contents.merge t).document? collection key = some d →
        (s.perform fs (.get collection key)).result = .ok (.document (some d)) := by
  have ha : s.settings.address collection key = .ok (collection, key) := address_of_ne hc hk
  have hl : s.reload fs = .ok { s with contents := s.contents.merge t } := by
    simp only [reload, path?_eq hp, ht]
  rw [perform_get_eq ha hl]
  simp only [conclude, deliver, Settings.effect, Settings.getEffect, ha]
  cases hg : (s.contents.merge t).get? collection with
  | none =>
    refine ⟨rfl, fun d hd => ?_⟩
    rw [Contents.document?, hg] at hd
    cases hd
  | some table =>
    refine ⟨rfl, fun d hd => ?_⟩
    rw [Contents.document?, hg] at hd
    exact congrArg (fun d? => Except.ok (Answer.document d?)) hd

/-- What has been stored is in memory. -/
theorem document?_perform_set {collection key : String} {d : Document} {answer : Answer}
    (hc : collection ≠ "") (h : (s.perform fs (.set collection key d)).result = .ok answer) :
    key ≠ "" ∧
      (s.perform fs (.set collection key d)).store.contents.document? collection key = some d := by
  have heq : s.perform fs (.set collection key d) = s.conclude fs (.set collection key d) :=
    perform_eq fun _ _ hop => by cases hop
  rw [heq] at h ⊢
  by_cases hk : key = ""
  · have ha : s.settings.address collection key = .error (.validation .emptyKey) := by
      simp [Settings.address, Settings.collectionName, hc, hk]
    simp only [conclude, deliver, Settings.effect, Settings.setEffect, ha] at h
    cases h
  · refine ⟨hk, ?_⟩
    rw [conclude_store]
    simp only [Settings.effect, Settings.setEffect, address_of_ne hc hk]
    exact Contents.document?_put s.contents collection key d

/-! ## A small store -/

theorem openWith_inMemory : openWith .initial .fresh = (.ok inMemory, .fresh) := by cbv

def database : Path := ⟨false, ["db.json"]⟩

def inDatabase : Settings := { Settings.initial with backing := .file database }

theorem eq_nil_of_node?_fresh {b : Bytes}
    (h : FileSystem.fresh.node? (FileSystem.fresh.place database) = some (.file b)) : b = [] := by
  have hnode : FileSystem.fresh.node? (FileSystem.fresh.place database) = none := by cbv
  rw [hnode] at h
  cases h

/-- The files once the store has been opened for the first time. -/
def withDatabase : FileSystem := ⟨.directory "work" (.file "db.json" [] .nil) .nil, ["work"], none⟩

theorem eq_nil_of_node?_withDatabase {b : Bytes}
    (h : withDatabase.node? (withDatabase.place database) = some (.file b)) : b = [] := by
  have hnode : withDatabase.node? (withDatabase.place database) = some (.file []) := by cbv
  rw [hnode] at h
  cases h
  rfl

def one : Document := ⟨"1", by cbv, by cbv⟩

end Store

end JsonCabinet
