import JsonCabinet.CommandLine.Run
import JsonCabinet.Proofs.WriteThrough

/-!
# Runs of the program

Each run of the program opens a store anew, performs one command and ends, so all that it leaves to
the next one is the file. Still a sequence of runs on one file reports what a single store in memory
would (`Ran.Agrees`), because a run that finds the contents of that store in the file leaves those
that the store has next (`agrees_of_held`).
-/

namespace JsonCabinet.CommandLine

open Files

/-! ## What a command asks for -/

/-- The operation that a command performs. There is none if the value to be stored is not a
document, and a dump only shows what there is. -/
def Command.operation? : Command → Option Operation
  | .get c k => some (.get c k)
  | .set c k value => (Document.accept (Document.parse value)).toOption.map (.set c k)
  | .del c k => some (.delete c k)
  | .list c limit page => some (.list c limit page)
  | .drop c => some (.dropCollection c)
  | .collections => some .collections
  | .dump => none

/-- A failure is told apart from an item that is not there. -/
def exitCode : Except StoreError Answer → Nat
  | .error _ => 2
  | .ok (.document none) | .ok (.removed false) | .ok (.dropped false) => 1
  | .ok _ => 0

/-- The lines that show an answer: a document as it is, a key and its document for each entry of a
page, or a name each. -/
def answerLines : Except StoreError Answer → List Bytes
  | .ok (.document (some d)) => [d.bytes]
  | .ok (.page listing) =>
    listing.items.entries.map fun (key, d) => Bytes.ofString key ++ 0x09 :: d.bytes
  | .ok (.names names) => names.map Bytes.ofString
  | _ => []

def inLines (lines : List Bytes) : Bytes := lines.flatMap (· ++ [newline])

namespace Invocation

variable (i : Invocation) (m : Store)

def format : Snapshot.Format := if i.compact then .compact else .pretty

/-- The exit code, when the contents are those of the store. -/
def code : Nat :=
  match i.command.operation? with
  | some op => exitCode (m.perform .fresh op).result
  | none => if i.command = .dump then 0 else 2

/-- The lines that are printed, when the contents are those of the store. -/
def lines : List Bytes :=
  match i.command.operation? with
  | some op => answerLines (m.perform .fresh op).result
  | none => if i.command = .dump then [Snapshot.encode i.format m.contents] else []

/-- The store once it has performed what is asked for. -/
def next : Store :=
  match i.command.operation? with
  | some op => (m.perform .fresh op).store
  | none => m

/-- The contents are changed, so that the file is written. -/
def writes : Bool :=
  match i.command.operation? with
  | some op => op.writes .auto (m.perform .fresh op).result
  | none => false

end Invocation

/-! ## Commands are operations -/

/-- The report tells the answer of an outcome, and the files are those after it. -/
structure Tells (reported : Report × FileSystem) (o : Outcome Answer) : Prop where
  code : reported.1.code = exitCode o.result
  output : reported.1.output = inLines (answerLines o.result)
  files : reported.2 = o.files

theorem tells_report {α : Type} {o : Outcome α} {answered : α → Report} {f : α → Answer}
    (hcode : ∀ a, (answered a).code = exitCode (.ok (f a)))
    (houtput : ∀ a, (answered a).output = inLines (answerLines (.ok (f a)))) :
    Tells (report o answered) (o.map f) := by
  unfold report Outcome.map
  cases o.result with
  | error e => exact ⟨rfl, rfl, rfl⟩
  | ok a => exact ⟨hcode a, houtput a, rfl⟩

section Commands

variable {s : Store} {fs : FileSystem} {command : Command} {op : Operation}

theorem tells_removed {o : Outcome Bool} {what : String} {f : Bool → Answer}
    (hcode : ∀ there, exitCode (.ok (f there)) = if there then 0 else 1)
    (hlines : ∀ there, answerLines (.ok (f there)) = []) :
    Tells (report o fun there => if there then .silent else .absent what) (o.map f) := by
  refine tells_report (fun there => ?_) fun there => ?_
  · rw [hcode]
    cases there <;> rfl
  · rw [hlines]
    cases there <;> rfl

theorem output_page (listing : ListPage) :
    pageLines listing = inLines (answerLines (.ok (.page listing))) := by
  simp only [pageLines, inLines, answerLines, List.flatMap_map, List.append_assoc, List.cons_append]

theorem output_names (names : List String) :
    (names.flatMap fun name => Bytes.ofString name ++ [newline]) =
      inLines (answerLines (.ok (.names names))) := by
  simp only [inLines, answerLines, List.flatMap_map]

/-- A command tells the answer to its operation. -/
theorem tells_perform (h : command.operation? = some op) :
    Tells (perform s fs command) (s.perform fs op) := by
  cases command with
  | get c k =>
    cases h
    refine tells_report (fun d? => ?_) fun d? => ?_
    · cases d? <;> rfl
    · cases d? with
      | none => rfl
      | some d => exact (List.flatMap_singleton ..).symm
  | set c k value =>
    cases hv : Document.accept (Document.parse value) with
    | error e =>
      rw [Command.operation?, hv] at h
      cases h
    | ok d =>
      rw [Command.operation?, hv] at h
      cases h
      simp only [perform, hv]
      exact tells_report (fun _ => rfl) fun _ => rfl
  | del c k =>
    cases h
    exact tells_removed (fun there => by cases there <;> rfl) fun _ => rfl
  | list c limit page =>
    cases h
    simp only [perform, Store.perform]
    cases s.list c limit page with
    | error e => exact ⟨rfl, rfl, rfl⟩
    | ok listing => exact ⟨rfl, output_page listing, rfl⟩
  | drop c =>
    cases h
    exact tells_removed (fun there => by cases there <;> rfl) fun _ => rfl
  | collections =>
    cases h
    exact ⟨rfl, output_names s.collections, rfl⟩
  | dump => cases h

/-- A value that is no document is an error, and leaves the files as they are. -/
theorem perform_of_no_document (h : command.operation? = none) (hdump : command ≠ .dump) :
    (perform s fs command).1.code = 2 ∧ (perform s fs command).1.output = [] ∧
      (perform s fs command).2 = fs := by
  cases command with
  | set c k value =>
    cases hv : Document.accept (Document.parse value) with
    | error e => simp only [perform, hv, Report.failed, and_self]
    | ok d =>
      rw [Command.operation?, hv] at h
      cases h
  | dump => exact absurd rfl hdump
  | get | del | list | drop | collections => cases h

end Commands

/-! ## Runs -/

/-- An invocation that was run, with what it reported and the files before and after it. -/
structure Ran where
  before : FileSystem
  invocation : Invocation
  report : Report
  after : FileSystem

def Invocation.ran (i : Invocation) (fs : FileSystem) : Ran := ⟨fs, i, (i.run fs).1, (i.run fs).2⟩

/-- Each invocation is run on the files that the one before it has left. -/
def runAll (fs : FileSystem) : List Invocation → List Ran
  | [] => []
  | i :: is => i.ran fs :: runAll (i.ran fs).after is

/-- No call to the file system fails in the run. -/
structure Ran.Clear (ran : Ran) : Prop where
  opened : NoFileError (Store.openWith ran.invocation.settings ran.before).1
  answered : ∀ s fs op, Store.openWith ran.invocation.settings ran.before = (.ok s, fs) →
    ran.invocation.command.operation? = some op → NoFileError (s.perform fs op).result

/-- The run reports what the store tells, and leaves in the file what the store has next: this is
the snapshot in the format of the invocation if there was something to write, and otherwise the
file is as it was, or empty if there was none. -/
structure Ran.Agrees (p : Path) (m : Store) (ran : Ran) : Prop where
  code : ran.report.code = ran.invocation.code m
  output : ran.report.output = inLines (ran.invocation.lines m)
  decodes : Snapshot.load ran.after p = .ok (ran.invocation.next m).contents
  written : ran.invocation.writes m = true → ran.after.contentOf p =
    .ok (Snapshot.encode ran.invocation.format (ran.invocation.next m).contents)
  unwritten : ran.invocation.writes m = false → ∃ b, ran.after.contentOf p = .ok b ∧
    (ran.before.node? (ran.before.place p) = some (.file b) ∨
      ran.before.node? (ran.before.place p) = none ∧ b = [])

section Runs

variable {i : Invocation} {m : Store} {fs : FileSystem} {p : Path}

theorem settings_eq (i : Invocation) : i.settings =
    { Settings.initial with backing := .ofText i.file, format := i.format } := rfl

/-- A store that is opened has left the file as it was, or made it. -/
theorem content_of_opened {settings : Settings} {s : Store} {fs' : FileSystem}
    (ho : Store.openWith settings fs = (.ok s, fs')) {t : Contents}
    (hl : Snapshot.load fs' p = .ok t) :
    ∃ b, fs'.contentOf p = .ok b ∧ (fs.node? (fs.place p) = some (.file b) ∨
      fs.node? (fs.place p) = none ∧ b = []) := by
  have hg := Store.grows_openWith settings fs
  rw [ho] at hg
  obtain ⟨b, hb, -⟩ := Snapshot.load_eq_ok_iff.1 hl
  have hn := (FileSystem.contentOf_eq_ok_iff.1 hb).2
  rw [hg.keeps.place_eq] at hn
  exact ⟨b, hb, hg.content_eq hn⟩

/-- An operation on the store that a run has opened, which has the contents of the one in memory. -/
theorem agrees_of_operation {op : Operation} {s : Store} {gs fs' : FileSystem} {r : Report}
    (hop : i.command.operation? = some op) (hm : Mirrors s m) (hsynced : Store.Synced p s gs)
    (hformat : s.settings.format = i.format) (hclear : NoFileError (s.perform gs op).result)
    (htells : Tells (r, fs') (s.perform gs op))
    (hopened : ∃ b, gs.contentOf p = .ok b ∧ (fs.node? (fs.place p) = some (.file b) ∨
      fs.node? (fs.place p) = none ∧ b = [])) :
    Ran.Agrees p m ⟨fs, i, r, fs'⟩ := by
  have hmirrors : (s.perform gs op).Mirrors (m.perform .fresh op) :=
    Store.perform_mirrors hm hsynced.backing hsynced.loads hclear
  have hmoves := Store.perform_moves hsynced.backing hclear
  have hfiles : fs' = (s.perform gs op).files := htells.files
  have hcontents : (i.next m).contents = (s.perform gs op).store.contents := by
    simp only [Invocation.next, hop, hmirrors.store.contents]
  have hwrites : i.writes m = op.writes .auto (s.perform gs op).result := by
    simp only [Invocation.writes, hop, hmirrors.result]
  refine ⟨?_, ?_, ?_, fun hw => ?_, fun hw => ?_⟩
  · simpa only [Invocation.code, hop, ← hmirrors.result] using htells.code
  · simpa only [Invocation.lines, hop, ← hmirrors.result] using htells.output
  · rw [hcontents, hfiles]
    exact (hsynced.perform hclear).loads
  · rw [hfiles, hsynced.contentOf_perform hclear (hwrites ▸ hw), hcontents, Store.snapshot,
      hmoves.settings_eq, hformat]
  · rw [hfiles, hmoves.unwritten (hsynced.auto ▸ hwrites ▸ hw)]
    exact hopened

/-- A run on a file that holds the contents of a store in memory agrees with this store. -/
theorem agrees_of_held (hp : Backing.ofText i.file = .file p)
    (hm : m.settings.backing = .memory) (halike : Settings.initial.Alike m.settings)
    (hheld : Snapshot.Held fs p m.contents) (hclear : (i.ran fs).Clear) :
    (i.ran fs).Agrees p m := by
  have hbacking : i.settings.backing = .file p := hp
  have hvalid : i.settings.validate = .ok () := rfl
  obtain ⟨fs', ho, hl⟩ := Store.openWith_of_held hvalid hbacking rfl hheld hclear.opened
  have hopened := content_of_opened ho hl
  have hrun : i.run fs = perform ⟨i.settings, m.contents⟩ fs' i.command := by
    rw [Invocation.run, ho]
  cases hop : i.command.operation? with
  | some op =>
    have hmirrors : Mirrors ⟨i.settings, m.contents⟩ m :=
      ⟨hm, ⟨halike.1, halike.2, halike.3⟩, rfl⟩
    refine agrees_of_operation hop hmirrors ⟨hvalid, hbacking, rfl, hl⟩ rfl
      (hclear.answered _ _ op ho hop) ?_ hopened
    rw [hrun]
    exact tells_perform hop
  | none =>
    have hnext : i.next m = m := by simp only [Invocation.next, hop]
    have hwrites : i.writes m = false := by simp only [Invocation.writes, hop]
    have hreport : (i.run fs).1.code = i.code m ∧ (i.run fs).1.output = inLines (i.lines m) ∧
        (i.run fs).2 = fs' := by
      rw [hrun]
      by_cases hdump : i.command = .dump
      · simp only [Invocation.code, Invocation.lines, hdump, if_true]
        exact ⟨rfl, (List.flatMap_singleton ..).symm, rfl⟩
      · simp only [Invocation.code, Invocation.lines, hop, if_neg hdump]
        exact perform_of_no_document hop hdump
    obtain ⟨hcode, houtput, hfiles⟩ := hreport
    refine ⟨hcode, houtput, ?_, fun hw => ?_, fun _ => ?_⟩
    · show Snapshot.load (i.run fs).2 p = .ok (i.next m).contents
      rw [hfiles, hnext, hl]
    · exact absurd hw (hwrites ▸ Bool.false_ne_true)
    · show ∃ b, (i.run fs).2.contentOf p = .ok b ∧ _
      rw [hfiles]
      exact hopened

/-- The store in memory once it has performed what these invocations ask for. -/
def remembering (m : Store) (is : List Invocation) : Store :=
  (m.run .fresh (is.filterMap fun i => i.command.operation?)).2.1

theorem remembering_cons (hm : m.settings.backing = .memory) (i : Invocation)
    (is : List Invocation) : remembering m (i :: is) = remembering (i.next m) is := by
  unfold remembering Invocation.next
  cases hop : i.command.operation? with
  | none => simp only [List.filterMap_cons, hop]
  | some op => simp only [List.filterMap_cons, hop, Store.run, Store.perform_memory hm]

theorem settings_next (hm : m.settings.backing = .memory) (i : Invocation) :
    (i.next m).settings = m.settings := by
  unfold Invocation.next
  split
  · rw [Store.perform_memory hm]
  · rfl

/-- Each run agrees with the store in memory that has performed what the runs before it asked
for. -/
theorem agrees_of_runAll {file : String} {is : List Invocation}
    (hp : Backing.ofText file = .file p) (hfile : ∀ i ∈ is, i.file = file)
    (hm : m.settings.backing = .memory) (halike : Settings.initial.Alike m.settings)
    (hheld : Snapshot.Held fs p m.contents) (hclear : ∀ ran ∈ runAll fs is, ran.Clear)
    {earlier later : List Ran} {ran : Ran} (hsplit : runAll fs is = earlier ++ ran :: later) :
    ran.Agrees p (remembering m (earlier.map Ran.invocation)) := by
  induction is generalizing fs m earlier with
  | nil => simp [runAll] at hsplit
  | cons i is ih =>
    obtain ⟨hi, his⟩ := List.forall_mem_cons.1 hfile
    obtain ⟨hfirst, hrest⟩ := List.forall_mem_cons.1 hclear
    have hagrees := agrees_of_held (hi ▸ hp) hm halike hheld hfirst
    cases earlier with
    | nil =>
      obtain ⟨rfl, -⟩ := List.cons.inj hsplit
      exact hagrees
    | cons first earlier =>
      obtain ⟨rfl, htail⟩ := List.cons.inj hsplit
      rw [List.map_cons, remembering_cons hm]
      have hsettings := settings_next hm i
      exact ih his (hsettings ▸ hm) (hsettings ▸ halike)
        (Snapshot.held_of_load hagrees.decodes) hrest htail

/-- The run succeeds. -/
def Ran.succeeds (ran : Ran) : Bool :=
  match Store.openWith ran.invocation.settings ran.before with
  | (.error _, _) => false
  | (.ok s, fs) => ran.invocation.command.operation?.all fun op => (s.perform fs op).result.isOk

theorem Ran.clear_of_succeeds {ran : Ran} (h : ran.succeeds = true) : ran.Clear := by
  unfold succeeds at h
  cases ho : Store.openWith ran.invocation.settings ran.before with
  | mk opened fs =>
    rw [ho] at h
    cases opened with
    | error e => cases h
    | ok s =>
      refine ⟨by rw [ho]; exact noFileError_of_isOk rfl, fun s' fs' op ho' hop => ?_⟩
      rw [ho] at ho'
      cases ho'
      rw [hop] at h
      exact noFileError_of_isOk h

theorem ofText_database : Backing.ofText "db.json" = .file Store.database := by rfl

theorem settings_inDatabase (compact : Bool) (command : Command) :
    (⟨"db.json", compact, command⟩ : Invocation).settings =
      { Store.inDatabase with format := if compact then .compact else .pretty } := by
  rw [settings_eq, ofText_database]
  rfl

/-- Whatever is run on one file that is missing or empty at first, in either format and with no
failure of the file system, each run reports what one store in memory tells that has performed all
the runs before, and the file decodes to the contents that this store has next. A run that changes
them leaves the snapshot in its own format, and any other leaves the file as it was. -/
theorem runs_agree_with_one_store {file : String} {is : List Invocation}
    (hp : Backing.ofText file = .file p)
    (hempty : ∀ b, fs.node? (fs.place p) = some (.file b) → b = [])
    (hfile : ∀ i ∈ is, i.file = file) (hclear : ∀ ran ∈ runAll fs is, ran.Clear) :
    ∀ earlier ran later, runAll fs is = earlier ++ ran :: later →
      ran.Agrees p (remembering .inMemory (earlier.map Ran.invocation)) :=
  fun _ _ _ hsplit => agrees_of_runAll hp hfile rfl ⟨rfl, rfl, rfl⟩
    (Snapshot.held_empty hempty) hclear hsplit

/-- A document is stored, and shown by a run that would write in the other format. -/
def storeAndShow : List Invocation :=
  [⟨"db.json", false, .set "c" "k" "1"⟩, ⟨"db.json", true, .get "c" "k"⟩]

theorem stored_document_is_shown :
    ∃ first second, runAll .fresh storeAndShow = [first, second] ∧ second.report.code = 0 ∧
      second.report.output = Bytes.ofString "1\n" := by
  have hempty : ∀ b, FileSystem.fresh.node? (FileSystem.fresh.place Store.database) =
      some (.file b) → b = [] := fun _ hb => Store.eq_nil_of_node?_fresh hb
  have hall : (runAll .fresh storeAndShow).all Ran.succeeds = true := by
    simp only [storeAndShow, runAll, Invocation.ran, Invocation.run, Ran.succeeds,
      settings_inDatabase, List.all_cons]
    cbv
  have hfile : ∀ i ∈ storeAndShow, i.file = "db.json" := by simp [storeAndShow]
  have hagrees := runs_agree_with_one_store ofText_database hempty hfile
    (fun ran hran => Ran.clear_of_succeeds (List.all_eq_true.1 hall ran hran)) [_] _ [] rfl
  have hcode : Invocation.code ⟨"db.json", true, .get "c" "k"⟩
      (remembering .inMemory [⟨"db.json", false, .set "c" "k" "1"⟩]) = 0 := by cbv
  have hlines : Invocation.lines ⟨"db.json", true, .get "c" "k"⟩
      (remembering .inMemory [⟨"db.json", false, .set "c" "k" "1"⟩]) = [Bytes.ofString "1"] := by
    cbv
  exact ⟨_, _, rfl, hagrees.code.trans hcode, hagrees.output.trans (congrArg inLines hlines)⟩

end Runs

end JsonCabinet.CommandLine
