import JsonCabinet.Error
import JsonCabinet.Files.System
import JsonCabinet.Page

/-!
# The store

A store has its whole contents in memory and a snapshot of them in one file. Under the automatic
policy a snapshot is written after every change, before the answer; under the manual one only a
flush writes. A read of a document takes over what the file holds by then. A change stays in
memory even if it cannot be written.
-/

namespace JsonCabinet

open Files

structure Store where
  settings : Settings
  contents : Contents
  deriving DecidableEq

/-- What an operation answers, with the store and the files after it. -/
structure Outcome (α : Type) where
  result : Except StoreError α
  store : Store
  files : FileSystem

/-! ## Names -/

/-- The collection that a name stands for. -/
def Settings.collectionName (s : Settings) (name : String) : Except StoreError String :=
  if name ≠ "" then .ok name
  else match s.emptyNames with
    | .substitute => .ok s.defaultCollection
    | .reject => .error (.validation .emptyCollection)

/-- The collection and the key of a call, which checks the collection first. -/
def Settings.address (s : Settings) (collection key : String) :
    Except StoreError (String × String) :=
  match s.collectionName collection with
  | .error e => .error e
  | .ok c => if key = "" then .error (.validation .emptyKey) else .ok (c, key)

/-! ## Snapshots in files -/

namespace Snapshot

/-- The contents that a file holds. -/
def load (fs : FileSystem) (p : Path) : Except StoreError Contents :=
  match fs.contentOf p with
  | .error e => .error (.io e)
  | .ok s => match decode s with
    | .error e => .error (.serialization (.snapshot e))
    | .ok t => .ok t

end Snapshot

namespace Store

def inMemory : Store := ⟨.initial, .empty⟩

/-- The snapshot of the contents in the format of the store. -/
def snapshot (s : Store) : Bytes := Snapshot.encode s.settings.format s.contents

/-- The file of the store, if it has one. -/
def path? (s : Store) : Option Path :=
  match s.settings.backing with
  | .memory => none
  | .file p => some p

/-- Writes the snapshot to the file of the store. -/
def persist (s : Store) (fs : FileSystem) : Except StoreError Unit × FileSystem :=
  match s.path? with
  | none => (.ok (), fs)
  | some p => match fs.replaceFile p s.snapshot with
    | (.ok _, fs) => (.ok (), fs)
    | (.error e, fs) => (.error (.io e), fs)

/-- Answers a change that has been made in memory, once it is written. -/
def answerWritten {α : Type} (s : Store) (fs : FileSystem) (answer : α) : Outcome α :=
  match s.persist fs with
  | (.ok _, fs) => ⟨.ok answer, s, fs⟩
  | (.error e, fs) => ⟨.error e, s, fs⟩

/-- Answers a change that has been made in memory. -/
def answerChanged {α : Type} (s : Store) (fs : FileSystem) (answer : α) : Outcome α :=
  if s.settings.writesThrough then s.answerWritten fs answer else ⟨.ok answer, s, fs⟩

/-! ## Opening -/

/-- Opens a store, whose file is created if it is missing. -/
def openWith (settings : Settings) (fs : FileSystem) : Except StoreError Store × FileSystem :=
  match settings.validate with
  | .error f => (.error (.config (.fault f)), fs)
  | .ok _ => match settings.backing with
    | .memory => (.ok ⟨settings, .empty⟩, fs)
    | .file p => match fs.prepareFile p with
      | (.error e, fs) => (.error (.io e), fs)
      | (.ok _, fs) => match Snapshot.load fs p with
        | .error e => (.error e, fs)
        | .ok t => (.ok ⟨settings, t⟩, fs)

/-! ## Operations -/

/-- Stores a document under a key. -/
def set (s : Store) (fs : FileSystem) (collection key : String) (d : Document) : Outcome Unit :=
  match s.settings.address collection key with
  | .error e => ⟨.error e, s, fs⟩
  | .ok (c, k) => answerChanged { s with contents := s.contents.put c k d } fs ()

/-- The document under a key of an existing collection, if there is one. -/
def lookup (s : Store) (collection key : String) : Except StoreError (Option Document) :=
  match s.contents.get? collection with
  | none => .error (.collectionNotFound collection)
  | some c => .ok (c.get? key)

/-- The store after it has taken over what its file holds. -/
def reload (s : Store) (fs : FileSystem) : Except StoreError Store :=
  match s.path? with
  | none => .ok s
  | some p => match Snapshot.load fs p with
    | .error e => .error e
    | .ok t => .ok { s with contents := s.contents.merge t }

def get (s : Store) (fs : FileSystem) (collection key : String) : Outcome (Option Document) :=
  match s.settings.address collection key with
  | .error e => ⟨.error e, s, fs⟩
  | .ok (c, k) => match s.reload fs with
    | .error e => ⟨.error e, s, fs⟩
    | .ok s => ⟨s.lookup c k, s, fs⟩

/-- Removes the document of a key and tells whether there was one. -/
def delete (s : Store) (fs : FileSystem) (collection key : String) : Outcome Bool :=
  match s.settings.address collection key with
  | .error e => ⟨.error e, s, fs⟩
  | .ok (c, k) => match s.contents.get? c with
    | none => ⟨.error (.collectionNotFound c), s, fs⟩
    | some table =>
      if table.contains k then
        answerChanged { s with contents := s.contents.insert c (table.erase k) } fs true
      else ⟨.ok false, s, fs⟩

/-- One page of a collection, as it is in memory. -/
def list (s : Store) (collection : String) (limit page : Int) : Except StoreError ListPage :=
  match s.settings.collectionName collection with
  | .error e => .error e
  | .ok c => match s.contents.get? c with
    | none => .error (.collectionNotFound c)
    | some table =>
      .ok ⟨(PageWindow.clamp limit page s.settings.maxPageSize).slice table, table.size⟩

/-- Removes a collection and tells whether it existed. -/
def dropCollection (s : Store) (fs : FileSystem) (collection : String) : Outcome Bool :=
  match s.settings.collectionName collection with
  | .error e => ⟨.error e, s, fs⟩
  | .ok c =>
    if s.contents.contains c then
      answerChanged { s with contents := s.contents.erase c } fs true
    else ⟨.ok false, s, fs⟩

/-- The names of the collections in memory, in order. -/
def collections (s : Store) : List String := s.contents.names

/-- Writes the contents to the file, under either policy. -/
def flush (s : Store) (fs : FileSystem) : Outcome Unit := s.answerWritten fs ()

end Store

end JsonCabinet
