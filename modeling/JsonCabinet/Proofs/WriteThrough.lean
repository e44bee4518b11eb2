import JsonCabinet.Proofs.Steps

/-!
# Writing through

A store that writes every change at once answers like a store in memory, and may be dropped and
opened again at any time. What is kept along a session is that the file decodes to the contents in
memory (`Synced`) and that a store in memory has the same contents (`Mirrors`). Each step keeps
both (`Synced.perform`, `Synced.reopen`, `perform_mirrors`), and so does a whole session
(`session_through`).
-/

namespace JsonCabinet

open Files

/-! ## Sessions -/

/-- What happens to a store that nobody else shares the file with. -/
inductive Step
  | operate (op : Operation)
  /-- The store is dropped, and one that writes in this format is opened on its file. -/
  | reopen (format : Snapshot.Format)
  deriving DecidableEq

def Step.operation? : Step → Option Operation
  | .operate op => some op
  | .reopen _ => none

/-- A step that was taken, with what came of it. -/
structure Taken where
  step : Step
  outcome : Outcome Answer

/-- The answer to an operation; opening a store is none. -/
def Taken.answer? (taken : Taken) : Option (Except StoreError Answer) :=
  taken.step.operation?.map fun _ => taken.outcome.result

namespace Store

def reopen (s : Store) (fs : FileSystem) (format : Snapshot.Format) : Outcome Answer :=
  match openWith { s.settings with format := format } fs with
  | (.ok s, fs) => ⟨.ok .done, s, fs⟩
  | (.error e, fs) => ⟨.error e, s, fs⟩

def advance (s : Store) (fs : FileSystem) : Step → Outcome Answer
  | .operate op => s.perform fs op
  | .reopen format => s.reopen fs format

/-- The steps of a session in order, each with what came of it. -/
def session (s : Store) (fs : FileSystem) : List Step → List Taken
  | [] => []
  | step :: steps =>
    let o := s.advance fs step
    ⟨step, o⟩ :: o.store.session o.files steps

end Store

/-! ## A store in memory beside one with a file -/

/-- The second store keeps the contents of the first one in memory. -/
structure Mirrors (s m : Store) : Prop where
  backing : m.settings.backing = .memory
  alike : s.settings.Alike m.settings
  contents : m.contents = s.contents

/-- The same answer, from stores with the same contents. -/
structure Outcome.Mirrors (o o' : Outcome Answer) : Prop where
  result : o.result = o'.result
  store : JsonCabinet.Mirrors o.store o'.store

namespace Store

variable {s m : Store} {fs gs : FileSystem} {p : Path} {t : Contents}

/-- A store that is synchronised with its file takes nothing new over. -/
theorem reload_synced (hp : s.settings.backing = .file p)
    (hl : Snapshot.load fs p = .ok s.contents) : s.reload fs = .ok s := by
  simp [reload, path?_eq hp, hl, Contents.merge_self]

/-- An operation is answered from the file as from memory. -/
theorem perform_mirrors {op : Operation} (hm : Mirrors s m) (hp : s.settings.backing = .file p)
    (hl : Snapshot.load fs p = .ok s.contents) (h : NoFileError (s.perform fs op).result) :
    (s.perform fs op).Mirrors (m.perform gs op) := by
  have heq : s.perform fs op = s.conclude fs op := perform_eq fun _ _ _ => reload_synced hp hl
  rw [heq] at h ⊢
  have heffect : m.settings.effect m.contents op = s.settings.effect s.contents op := by
    rw [hm.contents, hm.alike.effect_eq]
  rw [perform_memory hm.backing, heffect]
  refine ⟨(conclude_eq hp h).1, ?_⟩
  rw [conclude_store]
  exact ⟨hm.backing, hm.alike, rfl⟩

/-! ## A store and its file -/

/-- The store writes every change at once, and its file decodes to its contents. -/
structure Synced (p : Path) (s : Store) (fs : FileSystem) : Prop where
  valid : s.settings.validate = .ok ()
  backing : s.settings.backing = .file p
  auto : s.settings.flush = .auto
  loads : Snapshot.load fs p = .ok s.contents

theorem Synced.content (h : Synced p s fs) :
    ∃ b, fs.contentOf p = .ok b ∧ Snapshot.decode b = .ok s.contents :=
  Snapshot.load_eq_ok_iff.1 h.loads

/-- What an operation writes is what the file holds then. -/
theorem Synced.contentOf_perform {op : Operation} (h : Synced p s fs)
    (hclear : NoFileError (s.perform fs op).result)
    (hw : op.writes .auto (s.perform fs op).result = true) :
    (s.perform fs op).files.contentOf p = .ok (s.perform fs op).store.snapshot := by
  obtain ⟨b, hb, -⟩ := h.content
  exact (perform_moves h.backing hclear).contentOf_eq hb (h.auto ▸ hw)

theorem Synced.perform {op : Operation} (h : Synced p s fs)
    (hclear : NoFileError (s.perform fs op).result) :
    Synced p (s.perform fs op).store (s.perform fs op).files := by
  have hmoves := perform_moves h.backing hclear
  have hsettings := hmoves.settings_eq
  have hloads : Snapshot.load (s.perform fs op).files p = .ok (s.perform fs op).store.contents := by
    cases hw : op.writes .auto (s.perform fs op).result with
    | true => exact Snapshot.load_of_content (h.contentOf_perform hclear hw)
    | false =>
      have heq : s.perform fs op = s.conclude fs op :=
        perform_eq fun _ _ _ => reload_synced h.backing h.loads
      rw [hmoves.unwritten (h.auto ▸ hw), heq, conclude_store]
      rw [heq] at hclear hw
      rw [(conclude_eq h.backing hclear).1] at hw
      rw [effect_contents_of_not_writes hw, h.loads]
  exact ⟨hsettings ▸ h.valid, hsettings ▸ h.backing, hsettings ▸ h.auto, hloads⟩

/-- A store that is dropped and opened again, in any format, is the same but for the format. -/
theorem Synced.reopen {format : Snapshot.Format} (h : Synced p s fs)
    (hclear : NoFileError (s.reopen fs format).result) :
    ∃ fs', s.reopen fs format =
        ⟨.ok .done, ⟨{ s.settings with format := format }, s.contents⟩, fs'⟩ ∧
      Synced p ⟨{ s.settings with format := format }, s.contents⟩ fs' := by
  let settings : Settings := { s.settings with format := format }
  have hvalid : settings.validate = .ok () := h.valid
  have hopen : NoFileError (openWith settings fs).1 := by
    intro e he
    refine hclear e ?_
    unfold Store.reopen
    split
    · next ho => rw [ho] at he; cases he
    · next ho => rw [ho] at he; cases he; rfl
  obtain ⟨fs', ho, hl⟩ :=
    openWith_of_held hvalid h.backing rfl (Snapshot.held_of_load h.loads) hopen
  refine ⟨fs', ?_, hvalid, h.backing, h.auto, hl⟩
  rw [Store.reopen, ho]

/-- What holds of a step once a store has taken it that writes through to its file. -/
structure Through (p : Path) (taken : Taken) : Prop where
  decodes : ∃ b, taken.outcome.files.contentOf p = .ok b ∧
    Snapshot.decode b = .ok taken.outcome.store.contents
  written : ∀ op, taken.step = .operate op → op.writes .auto taken.outcome.result = true →
    taken.outcome.files.contentOf p = .ok taken.outcome.store.snapshot
  reopened : ∀ format, taken.step = .reopen format → taken.outcome.result = .ok .done

theorem Synced.through_perform {op : Operation} (h : Synced p s fs)
    (hclear : NoFileError (s.perform fs op).result) :
    Through p ⟨.operate op, s.perform fs op⟩ where
  decodes := (h.perform hclear).content
  written op' hop hw := by
    cases hop
    exact h.contentOf_perform hclear hw
  reopened _ hop := nomatch hop

/-- Along a session the answers are those of a store in memory, which is never reopened. -/
theorem session_through {steps : List Step} (gs : FileSystem) (h : Synced p s fs)
    (hm : Mirrors s m)
    (hclear : ∀ taken ∈ s.session fs steps, NoFileError taken.outcome.result) :
    (s.session fs steps).filterMap Taken.answer? =
        (m.run gs (steps.filterMap Step.operation?)).1 ∧
      ∀ taken ∈ s.session fs steps, Through p taken := by
  induction steps generalizing s m fs gs with
  | nil => exact ⟨rfl, fun _ h => nomatch h⟩
  | cons step steps ih =>
    rw [session] at hclear ⊢
    obtain ⟨hfirst, hrest⟩ := List.forall_mem_cons.1 hclear
    cases step with
    | operate op =>
      have hmirror : (s.perform fs op).Mirrors (m.perform gs op) :=
        perform_mirrors hm h.backing h.loads hfirst
      obtain ⟨hanswers, htaken⟩ := ih (m.perform gs op).files (h.perform hfirst) hmirror.store hrest
      refine ⟨?_, List.forall_mem_cons.2 ⟨h.through_perform hfirst, htaken⟩⟩
      have hanswer : (s.perform fs op).result = (m.perform gs op).result := hmirror.result
      simp only [advance, List.filterMap_cons, Taken.answer?, Step.operation?, Option.map, run,
        hanswer]
      exact congrArg _ hanswers
    | reopen format =>
      obtain ⟨fs', ho, hsynced⟩ := h.reopen hfirst
      rw [advance, ho] at hrest ⊢
      have hmirror : Mirrors ⟨{ s.settings with format := format }, s.contents⟩ m :=
        ⟨hm.backing, ⟨hm.alike.1, hm.alike.2, hm.alike.3⟩, hm.contents⟩
      obtain ⟨hanswers, htaken⟩ := ih gs hsynced hmirror hrest
      refine ⟨hanswers, List.forall_mem_cons.2 ⟨⟨hsynced.content, ?_, ?_⟩, htaken⟩⟩
      · intro op hop
        cases hop
      · intro _ _
        rfl

/-- A store on a missing or empty file holds nothing. -/
theorem openWith_empty {settings : Settings} (hvalid : settings.validate = .ok ())
    (hp : settings.backing = .file p)
    (hempty : ∀ b, fs.node? (fs.place p) = some (.file b) → b = [])
    (hclear : NoFileError (openWith settings fs).1) :
    ∃ fs', openWith settings fs = (.ok ⟨settings, .empty⟩, fs') ∧
      Snapshot.load fs' p = .ok .empty :=
  openWith_of_held hvalid hp rfl (Snapshot.held_empty hempty) hclear

/-- A store that writes every change at once, opened on a missing or empty file that nobody else
touches, answers as a store in memory does, however often it is dropped and opened again and in
whichever format. After each step its file decodes to just what it has in memory, and after each
change that was made, and each flush, the file is the snapshot. Only failures of the file system
are excluded; a call that is refused is a step like any other. -/
theorem write_through_refines_memory {settings memory : Settings}
    (hvalid : settings.validate = .ok ()) (hp : settings.backing = .file p)
    (hauto : settings.flush = .auto) (hmemory : memory.backing = .memory)
    (halike : settings.Alike memory)
    (hempty : ∀ b, fs.node? (fs.place p) = some (.file b) → b = [])
    (hclear : NoFileError (openWith settings fs).1) :
    ∃ s fs' m, openWith settings fs = (.ok s, fs') ∧ openWith memory fs = (.ok m, fs) ∧
      ∀ steps, (∀ taken ∈ s.session fs' steps, NoFileError taken.outcome.result) →
        (s.session fs' steps).filterMap Taken.answer? =
            (m.run fs (steps.filterMap Step.operation?)).1 ∧
          ∀ taken ∈ s.session fs' steps, Through p taken := by
  obtain ⟨fs', ho, hl⟩ := openWith_empty hvalid hp hempty hclear
  refine ⟨⟨settings, .empty⟩, fs', ⟨memory, .empty⟩, ho,
    openWith_memory (halike.validate_eq.trans hvalid) hmemory, fun steps hsteps => ?_⟩
  exact session_through fs ⟨hvalid, hp, hauto, hl⟩ ⟨hmemory, halike, rfl⟩ hsteps

/-! ### A session on a missing file -/

/-- A document is stored, and read after the store has been dropped and opened again. -/
def shortSession : List Step :=
  [.operate (.set "c" "k" one), .reopen .compact, .operate (.get "c" "k")]

theorem write_through_from_nothing :
    ∃ s fs' m, openWith inDatabase .fresh = (.ok s, fs') ∧
      openWith .initial .fresh = (.ok m, .fresh) ∧
      (s.session fs' shortSession).filterMap Taken.answer? =
        (m.run .fresh [.set "c" "k" one, .get "c" "k"]).1 := by
  have hopened : openWith inDatabase .fresh = (.ok ⟨inDatabase, .empty⟩, withDatabase) := by cbv
  have hclear : NoFileError (openWith inDatabase .fresh).1 := by
    rw [hopened]
    exact noFileError_of_isOk rfl
  have hempty : ∀ b, FileSystem.fresh.node? (FileSystem.fresh.place database) =
      some (.file b) → b = [] := fun _ hb => eq_nil_of_node?_fresh hb
  have halike : inDatabase.Alike .initial := ⟨rfl, rfl, rfl⟩
  obtain ⟨s, fs', m, ho, hm, h⟩ :=
    write_through_refines_memory (by rfl) (by rfl) (by rfl) (by rfl) halike hempty hclear
  refine ⟨s, fs', m, ho, hm, (h shortSession ?_).1⟩
  rw [hopened] at ho
  cases ho
  have hall : (session ⟨inDatabase, .empty⟩ withDatabase shortSession).all
      (fun taken => taken.outcome.result.isOk) = true := by
    cbv
  exact fun taken htaken => noFileError_of_isOk (List.all_eq_true.1 hall taken htaken)

end Store

end JsonCabinet
