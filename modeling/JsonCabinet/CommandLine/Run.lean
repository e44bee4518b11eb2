import JsonCabinet.CommandLine.Help
import JsonCabinet.Store

/-!
# A run of the program

A run opens the store of its file, performs one operation and reports. The exit code tells an
answer (0) from an absent item (1) and a failure (2).
-/

namespace JsonCabinet.CommandLine

open Files

structure Report where
  code : Nat
  output : Bytes
  errors : Bytes
  deriving DecidableEq, Repr

namespace Report

def silent : Report := ⟨0, [], []⟩

def printing (output : Bytes) : Report := ⟨0, output, []⟩

/-- A line on what is not there. -/
def absent (what : String) : Report := ⟨1, [], Bytes.ofString (what ++ ": not found\n")⟩

def failed (e : StoreError) : Report := ⟨2, [], Bytes.ofString ("error: " ++ e.message ++ "\n")⟩

end Report

def newline : UInt8 := 0x0A

/-- One line for each entry of a page. -/
def pageLines (listing : ListPage) : Bytes :=
  listing.items.entries.flatMap fun (key, d) =>
    Bytes.ofString key ++ 0x09 :: (d.bytes ++ [newline])

def pageSummary (listing : ListPage) : Bytes :=
  Bytes.ofString (toString listing.items.size ++ " of " ++ toString listing.total ++ " entries\n")

/-- The report on an answer, or on the failure that came instead. -/
def report {α : Type} (o : Outcome α) (answered : α → Report) : Report × FileSystem :=
  match o.result with
  | .ok a => (answered a, o.files)
  | .error e => (.failed e, o.files)

/-- Performs a command on an open store. -/
def perform (s : Store) (fs : FileSystem) : Command → Report × FileSystem
  | .get c k => report (s.get fs c k) fun
    | some d => .printing (d.bytes ++ [newline])
    | none => .absent (c ++ "/" ++ k)
  | .set c k value => match Document.accept (Document.parse value) with
    | .error e => (.failed e, fs)
    | .ok d => report (s.set fs c k d) fun _ => .silent
  | .del c k => report (s.delete fs c k) fun removed =>
    if removed then .silent else .absent (c ++ "/" ++ k)
  | .list c limit page => match s.list c limit page with
    | .error e => (.failed e, fs)
    | .ok listing => (⟨0, pageLines listing, pageSummary listing⟩, fs)
  | .drop c => report (s.dropCollection fs c) fun removed =>
    if removed then .silent else .absent c
  | .collections =>
    (.printing (s.collections.flatMap fun name => Bytes.ofString name ++ [newline]), fs)
  | .dump => (.printing (s.snapshot ++ [newline]), fs)

/-- The settings of the store that an invocation opens. -/
def Invocation.settings (i : Invocation) : Settings :=
  .ofChoices [.path i.file, .format (if i.compact then .compact else .pretty)]

def Invocation.run (i : Invocation) (fs : FileSystem) : Report × FileSystem :=
  match Store.openWith i.settings fs with
  | (.error e, fs) => (.failed e, fs)
  | (.ok s, fs) => perform s fs i.command

/-- What a request prints and leaves behind. -/
def Request.answer (request : Request) (fs : FileSystem) : Report × FileSystem :=
  match request with
  | .run i => i.run fs
  | .version => (.printing (Bytes.ofString versionText), fs)
  | .help topic => (.printing (Bytes.ofString topic.text), fs)

end JsonCabinet.CommandLine
