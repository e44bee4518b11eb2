import JsonCabinet.Proofs.Invocations
import JsonCabinet.Proofs.Merging
import JsonCabinet.Proofs.Traces

/-!
# Where contents are kept

The text of a path stands for no file if it is empty, or if its pieces between slashes are the
reserved name and then only some that name nothing (`Backing.ofText_eq_memory_iff`); any other text
is the path of a file. This decides what a store has to do with files. One that is in memory does
the same whatever the files are, and leaves them alone (`aloof_of_backing`). One that has a file
prepares and loads it when it is opened, loads it again for a read, and replaces it for a snapshot
that is due, always at the same path (`Store.performs`). As no operation changes the settings, this
holds at every moment of a run.
-/

namespace JsonCabinet

open Files

/-! ## Texts of paths -/

namespace Files

theorem cut_eq_splitOn (s : List Char) : cut s = s.splitOn '/' := by
  induction s with
  | nil => rfl
  | cons c s ih =>
    rw [cut, List.splitOn_cons_eq_if_modifyHead, ih]
    by_cases hc : c = '/'
    · rw [if_pos hc, if_pos (beq_iff_eq.2 hc)]
    · rw [if_neg hc, if_neg fun h => hc (beq_iff_eq.1 h)]
      cases hs : s.splitOn '/' with
      | nil => exact absurd (ih.trans hs) (cut_ne_nil s)
      | cons piece pieces => rfl

theorem Path.isBlank_ofList (piece : List Char) :
    Path.isBlank (String.ofList piece) = true ↔ piece = [] ∨ piece = ['.'] := by
  rw [Path.isBlank, Bool.or_eq_true, beq_iff_eq, beq_iff_eq]
  exact or_congr String.ofList_inj String.ofList_inj

end Files

/-- The first piece between slashes is the reserved name, and every other one is empty or a
point. -/
def SaysMemory (text : String) : Prop :=
  ∃ rest, text.toList.splitOn '/' = "memory".toList :: rest ∧
    ∀ piece ∈ rest, piece = [] ∨ piece = ['.']

def MeansMemory (text : String) : Prop := text = "" ∨ SaysMemory text

theorem isReserved_ofText (text : String) : isReserved (.ofText text) = true ↔ SaysMemory text := by
  rw [SaysMemory, ← cut_eq_splitOn, Path.ofText]
  split
  · next chars hchars =>
    refine iff_of_false (by simp [isReserved]) ?_
    rintro ⟨rest, hrest, -⟩
    rw [hchars, cut, if_pos rfl] at hrest
    cases hrest
  · cases hcut : cut text.toList with
    | nil => exact absurd hcut (cut_ne_nil _)
    | cons first rest =>
      show (String.ofList first == memoryName && (rest.map String.ofList).all Path.isBlank) = true
        ↔ _
      rw [Bool.and_eq_true, beq_iff_eq, List.all_map, List.all_eq_true]
      constructor
      · rintro ⟨hfirst, hrest⟩
        have hfirst : first = "memory".toList := by
          rw [← String.toList_ofList (l := first), hfirst]
          rfl
        exact ⟨rest, by rw [hfirst], fun piece hp => (Path.isBlank_ofList piece).1 (hrest piece hp)⟩
      · rintro ⟨rest', hsame, hrest⟩
        obtain ⟨rfl, rfl⟩ := List.cons.inj hsame
        exact ⟨String.ofList_toList,
          fun piece hp => (Path.isBlank_ofList piece).2 (hrest piece hp)⟩

theorem Backing.ofText_eq_memory_iff (text : String) :
    Backing.ofText text = .memory ↔ MeansMemory text := by
  rw [MeansMemory, ← isReserved_ofText, ← String.isEmpty_iff, ← Bool.or_eq_true, Backing.ofText]
  split
  · next h => exact iff_of_true rfl h
  · next h => exact iff_of_false nofun h

example : Backing.ofText "memory/.//" = .memory := by cbv

/-- Any other text is kept as it is. -/
theorem Backing.ofText_of_not_memory {text : String} (h : ¬MeansMemory text) :
    Backing.ofText text = .file (.ofText text) := by
  have hmemory := mt (ofText_eq_memory_iff text).1 h
  unfold Backing.ofText at hmemory ⊢
  split
  · next ht => exact absurd (if_pos ht) hmemory
  · rfl

/-! ## Ways of giving a path -/

/-- The choice says where the contents are kept. -/
def Settings.Choice.Places : Choice → Prop
  | .path _ | .inMemory => True
  | _ => False

/-- These are settings with this text for the path: it is the last word on the place among several
choices, it is the only choice, or it is the file of an invocation of the program. -/
inductive OpenedAt (text : String) : Settings → Prop
  | choices (before after : List Settings.Choice) (hafter : ∀ x ∈ after, ¬x.Places) :
    OpenedAt text (.ofChoices (before ++ .path text :: after))
  | path : OpenedAt text (.ofChoices [.path text])
  | invocation (i : CommandLine.Invocation) (h : i.file = text) : OpenedAt text i.settings

theorem Settings.backing_foldl {choices : List Choice} (h : ∀ x ∈ choices, ¬x.Places)
    (s : Settings) : (choices.foldl choose s).backing = s.backing := by
  induction choices generalizing s with
  | nil => rfl
  | cons x choices ih =>
    obtain ⟨hx, hrest⟩ := List.forall_mem_cons.1 h
    rw [List.foldl_cons, ih hrest]
    cases x with
    | path | inMemory => exact absurd trivial hx
    | _ => rfl

theorem OpenedAt.backing_eq {text : String} {settings : Settings} (h : OpenedAt text settings) :
    settings.backing = .ofText text := by
  cases h with
  | choices before after hafter =>
    rw [Settings.ofChoices, List.foldl_append, List.foldl_cons, Settings.backing_foldl hafter]
    rfl
  | path => rfl
  | invocation i h => exact h ▸ rfl

/-! ## Stores in memory -/

namespace Store

/-- The store after an operation, which meets a file system of its own. -/
def react (s : Store) (step : FileSystem × Operation) : Store := (s.perform step.1 step.2).store

theorem settings_of_mem_trace {s : Store} {steps : List (FileSystem × Operation)}
    {m : Moment Store (FileSystem × Operation)} (h : m ∈ trace react s steps) :
    m.state.settings = s.settings := by
  induction steps generalizing s with
  | nil => cases h
  | cons step steps ih =>
    rcases List.mem_cons.1 h with rfl | h
    · rfl
    · exact (ih h).trans (s.perform_settings step.1 step.2)

end Store

/-- Opening a store, and each operation in every run of it, has one outcome whatever the files
are, and leaves them as they are. -/
structure Aloof (settings : Settings) : Prop where
  opened : ∃ r, ∀ fs, Store.openWith settings fs = (r, fs)
  performed : ∀ s fs, (Store.openWith settings fs).1 = .ok s → ∀ steps,
    ∀ m ∈ trace Store.react s steps, ∃ r s', ∀ fs, m.state.perform fs m.input.2 = ⟨r, s', fs⟩

theorem aloof_of_backing {settings : Settings} (h : settings.backing = .memory) :
    Aloof settings where
  opened := by
    cases hvalid : settings.validate with
    | error f =>
      exact ⟨.error (.config (.fault f)), fun fs => by simp only [Store.openWith, hvalid]⟩
    | ok => exact ⟨.ok ⟨settings, .empty⟩, fun fs => Store.openWith_memory hvalid h⟩
  performed s fs hs steps m hm := by
    have hsettings : s.settings = settings := by
      have hvalid := Store.validate_of_openWith (Prod.ext hs rfl)
      rw [Store.openWith_memory hvalid h] at hs
      cases hs
      rfl
    have hm' : m.state.settings.backing = .memory := by
      rw [Store.settings_of_mem_trace hm, hsettings, h]
    exact ⟨_, _, fun fs => Store.perform_memory hm' m.input.2⟩

/-! ## Stores with a file -/

namespace Store

/-- What comes of opening a store that has its file at this path. -/
inductive Opens (q : Path) (settings : Settings) (fs : FileSystem) :
    Except StoreError Store × FileSystem → Prop
  | invalid {f : Settings.Fault} (h : settings.validate = .error f) :
    Opens q settings fs (.error (.config (.fault f)), fs)
  | unprepared {e : FileError} {fs' : FileSystem} (hvalid : settings.validate = .ok ())
    (h : fs.prepareFile q = (.error e, fs')) : Opens q settings fs (.error (.io e), fs')
  | unread {e : StoreError} {fs' : FileSystem} (hvalid : settings.validate = .ok ())
    (hprepared : fs.prepareFile q = (.ok (), fs')) (h : Snapshot.load fs' q = .error e) :
    Opens q settings fs (.error e, fs')
  | read {t : Contents} {fs' : FileSystem} (hvalid : settings.validate = .ok ())
    (hprepared : fs.prepareFile q = (.ok (), fs')) (h : Snapshot.load fs' q = .ok t) :
    Opens q settings fs (.ok ⟨settings, t⟩, fs')

/-- What comes of an operation of a store that has its file at this path. -/
inductive Performs (q : Path) (s : Store) (fs : FileSystem) (op : Operation) :
    Outcome Answer → Prop
  | unread {e : StoreError} (hop : op.TakesOver s.settings) (h : Snapshot.load fs q = .error e) :
    Performs q s fs op ⟨.error e, s, fs⟩
  | read {t : Contents} (hop : op.TakesOver s.settings) (h : Snapshot.load fs q = .ok t) :
    Performs q s fs op
      ⟨(s.settings.effect (s.contents.merge t) op).answer, ⟨s.settings, s.contents.merge t⟩, fs⟩
  | apart (e : Effect) (hop : ¬op.TakesOver s.settings)
    (heffect : s.settings.effect s.contents op = e)
    (hdue : op.writes s.settings.flush e.answer = false) :
    Performs q s fs op ⟨e.answer, ⟨s.settings, e.contents⟩, fs⟩
  | written (e : Effect) {fs' : FileSystem} (hop : ¬op.TakesOver s.settings)
    (heffect : s.settings.effect s.contents op = e)
    (hdue : op.writes s.settings.flush e.answer = true)
    (h : fs.replaceFile q (snapshot ⟨s.settings, e.contents⟩) = (.ok (), fs'))
    (hfiles : fs.Rewrites fs' (fs.place q) (snapshot ⟨s.settings, e.contents⟩)) :
    Performs q s fs op ⟨e.answer, ⟨s.settings, e.contents⟩, fs'⟩
  | unwritten (e : Effect) {error : FileError} {fs' : FileSystem}
    (hop : ¬op.TakesOver s.settings) (heffect : s.settings.effect s.contents op = e)
    (hdue : op.writes s.settings.flush e.answer = true)
    (h : fs.replaceFile q (snapshot ⟨s.settings, e.contents⟩) = (.error error, fs'))
    (hfiles : fs.Unchanged fs') :
    Performs q s fs op ⟨.error (.io error), ⟨s.settings, e.contents⟩, fs'⟩

variable {s : Store} {fs : FileSystem} {q : Path} {op : Operation}

theorem opens {settings : Settings} (hq : settings.backing = .file q) (fs : FileSystem) :
    Opens q settings fs (openWith settings fs) := by
  unfold openWith
  cases hvalid : settings.validate with
  | error f => exact .invalid hvalid
  | ok =>
    simp only [hq]
    cases hprepared : fs.prepareFile q with
    | mk result fs' =>
      cases result with
      | error e => exact .unprepared hvalid hprepared
      | ok =>
        simp only
        cases hl : Snapshot.load fs' q with
        | error e => exact .unread hvalid hprepared hl
        | ok t => exact .read hvalid hprepared hl

theorem Opens.settings_eq {settings : Settings} {fs' : FileSystem}
    (h : Opens q settings fs (.ok s, fs')) : s.settings = settings := by
  cases h
  rfl

/-- An operation that reads nothing has its effect, and writes the snapshot if it is due. -/
theorem performs_conclude (hq : s.settings.backing = .file q) (hop : ¬op.TakesOver s.settings)
    (h : s.perform fs op = s.conclude fs op) : Performs q s fs op (s.perform fs op) := by
  have hpath : path? ⟨s.settings, (s.settings.effect s.contents op).contents⟩ = some q :=
    path?_eq hq
  rw [h, conclude]
  cases hdue : op.writes s.settings.flush (s.settings.effect s.contents op).answer with
  | false => exact .apart _ hop rfl hdue
  | true =>
    cases hw : fs.replaceFile q
        (snapshot ⟨s.settings, (s.settings.effect s.contents op).contents⟩) with
    | mk result fs' =>
      simp only [deliver, persist, hpath, hw, if_true]
      cases result with
      | ok => exact .written _ hop rfl hdue hw (FileSystem.rewrites_of_replaceFile hw).2
      | error e => exact .unwritten _ hop rfl hdue hw (FileSystem.unchanged_of_replaceFile hw)

theorem performs (hq : s.settings.backing = .file q) (fs : FileSystem) (op : Operation) :
    Performs q s fs op (s.perform fs op) := by
  by_cases hop : op.TakesOver s.settings
  · cases op with
    | get c k =>
      have ha := Settings.address_of_not_refused hop
      cases hl : Snapshot.load fs q with
      | error e =>
        rw [get_of_load_error hq ha hl]
        exact .unread hop hl
      | ok t =>
        rw [get_of_load hq ha hl]
        exact .read hop hl
    | _ => exact hop.elim
  · refine performs_conclude hq hop ?_
    by_cases hget : ∃ c k, op = .get c k
    · obtain ⟨c, k, rfl⟩ := hget
      obtain ⟨why, ha⟩ := Settings.address_of_refused (not_not.1 hop)
      exact perform_get_of_error ha
    · exact perform_eq fun c k hop => absurd ⟨c, k, hop⟩ hget

end Store

/-- Opening a store, and each operation in every run of it, does what it does with the file at this
path. -/
structure KeepsTo (q : Path) (settings : Settings) : Prop where
  opened : ∀ fs, Store.Opens q settings fs (Store.openWith settings fs)
  performed : ∀ s fs, (Store.openWith settings fs).1 = .ok s → ∀ steps,
    ∀ m ∈ trace Store.react s steps,
      Store.Performs q m.state m.input.1 m.input.2 (m.state.perform m.input.1 m.input.2)

theorem keepsTo_of_backing {q : Path} {settings : Settings} (h : settings.backing = .file q) :
    KeepsTo q settings where
  opened := Store.opens h
  performed s fs hs steps m hm := by
    have hopens : Store.Opens q settings fs (.ok s, (Store.openWith settings fs).2) := by
      rw [← hs]
      exact Store.opens h fs
    have hm' : m.state.settings.backing = .file q := by
      rw [Store.settings_of_mem_trace hm, hopens.settings_eq, h]
    exact Store.performs hm' m.input.1 m.input.2

/-! ## Runs of the program -/

namespace CommandLine

variable {s : Store} {i : Invocation}

theorem map_injective {ε α β : Type} {f : α → β} (hf : f.Injective) :
    (Except.map f : Except ε α → Except ε β).Injective := by
  intro x y h
  cases x with
  | error e =>
    cases y with
    | error e' => rw [Except.error.inj h]
    | ok b => cases h
  | ok a =>
    cases y with
    | error e' => cases h
    | ok b => rw [hf (Except.ok.inj h)]

/-- An outcome that does not depend on the files is reported alike. -/
theorem report_of_aloof {α : Type} {o : FileSystem → Outcome α} {f : α → Answer}
    (hf : f.Injective) {r : Except StoreError Answer} {s' : Store}
    (h : ∀ fs, (o fs).map f = ⟨r, s', fs⟩) (answered : α → Report) :
    ∃ reported, ∀ fs, report (o fs) answered = (reported, fs) := by
  have hfiles (fs : FileSystem) : (o fs).files = fs := congrArg Outcome.files (h fs)
  have hresult (fs : FileSystem) : (o fs).result = (o .fresh).result :=
    map_injective hf <|
      (congrArg Outcome.result (h fs)).trans (congrArg Outcome.result (h .fresh)).symm
  refine ⟨(report (o .fresh) answered).1, fun fs => ?_⟩
  rw [report, report, hresult, hfiles]
  split <;> rfl

theorem perform_of_memory (hs : s.settings.backing = .memory) (command : Command) :
    ∃ reported, ∀ fs, perform s fs command = (reported, fs) := by
  have haloof {α : Type} {o : FileSystem → Outcome α} {f : α → Answer} (op : Operation)
      (hf : f.Injective) (ho : ∀ fs, s.perform fs op = (o fs).map f) (answered : α → Report) :
      ∃ reported, ∀ fs, report (o fs) answered = (reported, fs) :=
    report_of_aloof hf (fun fs => (ho fs).symm.trans (Store.perform_memory hs op)) answered
  cases command with
  | get c k => exact haloof (.get c k) (fun _ _ h => Answer.document.inj h) (fun _ => rfl) _
  | set c k value =>
    cases hv : Document.accept (Document.parse value) with
    | error e => exact ⟨.failed e, fun fs => by simp only [perform, hv]⟩
    | ok d =>
      simp only [perform, hv]
      exact haloof (.set c k d) (fun _ _ _ => rfl) (fun _ => rfl) _
  | del c k => exact haloof (.delete c k) (fun _ _ h => Answer.removed.inj h) (fun _ => rfl) _
  | drop c => exact haloof (.dropCollection c) (fun _ _ h => Answer.dropped.inj h) (fun _ => rfl) _
  | list c limit page =>
    simp only [perform]
    cases s.list c limit page with
    | error e => exact ⟨_, fun _ => rfl⟩
    | ok listing => exact ⟨_, fun _ => rfl⟩
  | collections | dump => exact ⟨_, fun _ => rfl⟩

/-- An invocation on a store in memory reports the same whatever the files are, and leaves them as
they are. -/
theorem Invocation.run_of_memory (h : i.settings.backing = .memory) :
    ∃ reported, ∀ fs, i.run fs = (reported, fs) := by
  obtain ⟨reported, hreported⟩ := @perform_of_memory ⟨i.settings, .empty⟩ h i.command
  refine ⟨reported, fun fs => ?_⟩
  rw [Invocation.run, Store.openWith_memory rfl h]
  exact hreported fs

/-- What is not an operation does not depend on the files. -/
theorem perform_of_no_operation {command : Command} (h : command.operation? = none) (s : Store) :
    ∃ reported, ∀ fs, perform s fs command = (reported, fs) := by
  cases command with
  | set c k value =>
    cases hv : Document.accept (Document.parse value) with
    | error e => exact ⟨.failed e, fun fs => by simp only [perform, hv]⟩
    | ok d =>
      rw [Command.operation?, hv] at h
      cases h
  | dump => exact ⟨_, fun _ => rfl⟩
  | get | del | list | drop | collections => cases h

/-- What comes of an invocation whose store has its file at this path. -/
inductive Invocation.Runs (q : Path) (i : Invocation) (fs : FileSystem) :
    Report × FileSystem → Prop
  | unopened {e : StoreError} {fs' : FileSystem}
    (h : Store.Opens q i.settings fs (.error e, fs')) : Runs q i fs (.failed e, fs')
  | operated {s : Store} {fs' : FileSystem} {op : Operation} {o : Outcome Answer}
    {reported : Report × FileSystem} (h : Store.Opens q i.settings fs (.ok s, fs'))
    (hop : i.command.operation? = some op) (ho : Store.Performs q s fs' op o)
    (htells : Tells reported o) : Runs q i fs reported
  | apart {s : Store} {fs' : FileSystem} {reported : Report}
    (h : Store.Opens q i.settings fs (.ok s, fs')) (hop : i.command.operation? = none)
    (hsame : ∀ fs, perform s fs i.command = (reported, fs)) : Runs q i fs (reported, fs')

theorem Invocation.runs {q : Path} (hq : i.settings.backing = .file q) (fs : FileSystem) :
    i.Runs q fs (i.run fs) := by
  have hopens := Store.opens hq fs
  rw [Invocation.run]
  cases hopened : Store.openWith i.settings fs with
  | mk result fs' =>
    rw [hopened] at hopens
    cases result with
    | error e => exact .unopened hopens
    | ok s =>
      cases hop : i.command.operation? with
      | some op =>
        have hs : s.settings.backing = .file q := hopens.settings_eq.symm ▸ hq
        exact .operated hopens hop (Store.performs hs fs' op) (tells_perform hop)
      | none =>
        obtain ⟨reported, hsame⟩ := perform_of_no_operation hop s
        simp only [hsame]
        exact .apart hopens hop hsame

end CommandLine

/-! ## What the text decides -/

/-- What a text that is given for a path means. -/
structure Decides (text : String) : Prop where
  memory_iff : Backing.ofText text = .memory ↔ MeansMemory text
  memory : MeansMemory text → (∀ settings, OpenedAt text settings → Aloof settings) ∧
    ∀ i : CommandLine.Invocation, i.file = text → ∃ reported, ∀ fs, i.run fs = (reported, fs)
  file : ¬MeansMemory text → ∃ q, Backing.ofText text = .file q ∧ q.text = text ∧
    (∀ settings, OpenedAt text settings → KeepsTo q settings) ∧
    ∀ i : CommandLine.Invocation, i.file = text → ∀ fs, i.Runs q fs (i.run fs)

/-- The text of a path decides whether there is a file, and which. -/
theorem path_text_decides (text : String) : Decides text where
  memory_iff := Backing.ofText_eq_memory_iff text
  memory h := by
    have hmemory := (Backing.ofText_eq_memory_iff text).2 h
    refine ⟨fun settings ho => aloof_of_backing (ho.backing_eq.trans hmemory), fun i hi => ?_⟩
    exact CommandLine.Invocation.run_of_memory ((OpenedAt.invocation i hi).backing_eq.trans hmemory)
  file h := by
    have hfile := Backing.ofText_of_not_memory h
    exact ⟨.ofText text, hfile, Path.text_ofText text,
      fun settings ho => keepsTo_of_backing (ho.backing_eq.trans hfile),
      fun i hi => CommandLine.Invocation.runs ((OpenedAt.invocation i hi).backing_eq.trans hfile)⟩

end JsonCabinet
