import JsonCabinet.Files.Entries
import JsonCabinet.Files.Error
import JsonCabinet.Files.Path
import JsonCabinet.Text.Order

/-!
# A file system

Directories and regular files under one root, and a working directory. Every operation is a
function on the whole: it gives the file system after the call, or the error of a call that
changed nothing. Paths are followed name by name, and which of several errors is told is decided
by the order in which the names are met. A file is replaced by staging its new content beside it.
-/

namespace JsonCabinet.Files

structure FileSystem where
  root : Entries
  working : Location
  /-- How the creation of anything new fails, while there is no room for it. -/
  refusal : Option FileError := none
  deriving DecidableEq, Repr

namespace FileSystem

/-- An empty working directory below the root. -/
def fresh : FileSystem := ⟨.directory "work" .nil .nil, ["work"], none⟩

/-- What is at a location; the root is always there. -/
def node? (fs : FileSystem) (loc : Location) : Option Node := fs.root.node? loc

/-- What a directory holds under a name. -/
def get? (fs : FileSystem) (dir : Location) (name : String) : Option Node :=
  (fs.root.within dir).get? name

/-- Places a node, instead of what was there. -/
def put (fs : FileSystem) (dir : Location) (name : String) (node : Node) : FileSystem :=
  { fs with root := fs.root.put dir name node }

/-- Takes a node away. -/
def remove (fs : FileSystem) (dir : Location) (name : String) : FileSystem :=
  { fs with root := fs.root.remove dir name }

theorem get?_eq_node? (fs : FileSystem) (dir : Location) (name : String) :
    fs.get? dir name = fs.node? (dir ++ [name]) :=
  (Entries.node?_append_singleton fs.root dir name).symm

/-! ## Following paths -/

def longestName : Nat := 255

def longestPath : Nat := 4095

/-- A directory as it is reached: it and those before it, each with its name and what it holds,
the last first. -/
abbrev Trail := List (String × Entries)

def Trail.location (trail : Trail) : Location := (trail.map Prod.fst).reverse

/-- What the directory at the end of a trail holds. -/
def inside (fs : FileSystem) : Trail → Entries
  | [] => fs.root
  | (_, e) :: _ => e

/-- One more directory on the trail. -/
def descend (fs : FileSystem) (trail : Trail) (name : String) : Trail :=
  (name, (fs.inside trail).inside name) :: trail

def trailTo (fs : FileSystem) (loc : Location) : Trail := loc.foldl fs.descend []

/-- A step into the directory with this name. -/
def enter (fs : FileSystem) (trail : Trail) (name : String) : Except FileError Trail :=
  if name = "." then .ok trail
  else if name = ".." then .ok trail.tail
  else if longestName < name.utf8ByteSize then .error .nameTooLong
  else match (fs.inside trail).get? name with
    | some .directory => .ok (fs.descend trail name)
    | some (.file _) => .error .notADirectory
    | none => .error .notFound

def enterAll (fs : FileSystem) : Trail → List String → Except FileError Trail
  | trail, [] => .ok trail
  | trail, name :: names => match fs.enter trail name with
    | .ok trail => fs.enterAll trail names
    | .error e => .error e

def start (fs : FileSystem) (p : Path) : Location := if p.rooted then [] else fs.working

/-- The directory that these names lead to from where a path starts. -/
def follow (fs : FileSystem) (p : Path) (names : List String) : Except FileError Location :=
  (fs.enterAll (fs.trailTo (fs.start p)) names).map Trail.location

/-- What the last name of a path is. -/
inductive Last
  | root
  | here
  | up
  | name (name : String) (slash : Bool)
  deriving DecidableEq, Repr

/-- Where the last name leads from the directory that holds it. -/
def Last.under (dir : Location) : Last → Location
  | .root => []
  | .here => dir
  | .up => dir.dropLast
  | .name last _ => dir ++ [last]

def names (p : Path) : List String := p.segments.filter (· ≠ "")

def endsInSlash (p : Path) : Bool := p.segments.getLast? == some ""

/-- What any call refuses before it looks at the file system. -/
def check (p : Path) : Except FileError Unit :=
  let text := p.text
  if text.contains '\x00' then .error .nulInName
  else if longestPath < text.utf8ByteSize then .error .nameTooLong
  else if p.isEmpty then .error .notFound
  else .ok ()

/-- The directory that holds the last name of a path, and that name, which nothing need have. -/
def holder (fs : FileSystem) (p : Path) : Except FileError (Location × Last) :=
  match check p with
  | .error e => .error e
  | .ok _ => match (names p).getLast? with
    | none => .ok ([], .root)
    | some last => match fs.follow p (names p).dropLast with
      | .error e => .error e
      | .ok dir =>
        if last = "." then .ok (dir, .here)
        else if last = ".." then .ok (dir, .up)
        else .ok (dir, .name last (endsInSlash p))

/-- The same for a last name that something could have. -/
def locate (fs : FileSystem) (p : Path) : Except FileError (Location × Last) :=
  match fs.holder p with
  | .error e => .error e
  | .ok (dir, .name last slash) =>
    if longestName < last.utf8ByteSize then .error .nameTooLong else .ok (dir, .name last slash)
  | .ok found => .ok found

/-- The node that a path leads to. -/
def find (fs : FileSystem) (p : Path) : Except FileError Node :=
  match fs.locate p with
  | .error e => .error e
  | .ok (_, .root) | .ok (_, .here) | .ok (_, .up) => .ok .directory
  | .ok (dir, .name last slash) => match fs.get? dir last with
    | none => .error .notFound
    | some .directory => .ok .directory
    | some (.file content) => if slash then .error .notADirectory else .ok (.file content)

def isDirectory (fs : FileSystem) (p : Path) : Bool :=
  match fs.find p with
  | .ok .directory => true
  | _ => false

/-! ## Files -/

def contentOf (fs : FileSystem) (p : Path) : Except FileError Bytes :=
  match fs.find p with
  | .ok (.file content) => .ok content
  | .ok .directory => .error .isADirectory
  | .error e => .error e

/-- Something new is placed in a directory, if that is there and there is room. -/
def create (fs : FileSystem) (dir : Location) (name : String) (node : Node) :
    Except FileError FileSystem :=
  match fs.node? dir, fs.refusal with
  | some .directory, none => .ok (fs.put dir name node)
  | some .directory, some e => .error e
  | _, _ => .error .notFound

/-- Opens a file for writing and gives it the content that `change` makes of its former one; a
missing file is created empty first. -/
def openForWriting (fs : FileSystem) (p : Path) (change : Bytes → Bytes) :
    Except FileError FileSystem :=
  match fs.holder p with
  | .error e => .error e
  | .ok (_, .root) | .ok (_, .here) | .ok (_, .up) | .ok (_, .name _ true) =>
    .error .isADirectory
  | .ok (dir, .name last false) =>
    if longestName < last.utf8ByteSize then .error .nameTooLong
    else match fs.get? dir last with
      | some .directory => .error .isADirectory
      | some (.file content) => .ok (fs.put dir last (.file (change content)))
      | none => fs.create dir last (.file (change []))

/-- Creates the file if it is missing. -/
def touch (fs : FileSystem) (p : Path) : Except FileError FileSystem := fs.openForWriting p id

def writeFile (fs : FileSystem) (p : Path) (content : Bytes) : Except FileError FileSystem :=
  fs.openForWriting p fun _ => content

def removeFile (fs : FileSystem) (p : Path) : Except FileError FileSystem :=
  match fs.locate p with
  | .error e => .error e
  | .ok (_, .root) | .ok (_, .here) | .ok (_, .up) => .error .isADirectory
  | .ok (dir, .name last slash) => match fs.get? dir last with
    | none => .error .notFound
    | some .directory => .error .isADirectory
    | some (.file _) => if slash then .error .notADirectory else .ok (fs.remove dir last)

/-! ## Directories -/

def makeDirectory (fs : FileSystem) (p : Path) : Except FileError FileSystem :=
  match fs.locate p with
  | .error e => .error e
  | .ok (_, .root) | .ok (_, .here) | .ok (_, .up) => .error .alreadyExists
  | .ok (dir, .name last _) => match fs.get? dir last with
    | some _ => .error .alreadyExists
    | none => fs.create dir last .directory

set_option linter.unusedVariables false in
/-- Makes a directory after its ancestors; those that could be made stay when a later one fails. -/
def makeDirectories (fs : FileSystem) (p : Path) : Except FileError Unit × FileSystem :=
  if p.isEmpty then (.ok (), fs)
  else match fs.makeDirectory p with
    | .ok fs => (.ok (), fs)
    | .error .notFound => match h : p.parent? with
      | none => (.error .noAncestor, fs)
      | some parent => match fs.makeDirectories parent with
        | (.error e, fs) => (.error e, fs)
        | (.ok _, fs) => match fs.makeDirectory p with
          | .ok fs => (.ok (), fs)
          | .error e => (if fs.isDirectory p then .ok () else .error e, fs)
    | .error e => (if fs.isDirectory p then .ok () else .error e, fs)
termination_by p.segments.length
decreasing_by exact Path.length_parent? h

/-- The names in a directory, in order. -/
def list (fs : FileSystem) (p : Path) : Except FileError (List String) :=
  match fs.locate p with
  | .error e => .error e
  | .ok (dir, last) =>
    let loc := last.under dir
    match fs.node? loc with
    | none => .error .notFound
    | some (.file _) => .error .notADirectory
    | some .directory => .ok ((fs.root.within loc).names.mergeSort fun a b => !Text.precedes b a)

/-- Takes away all that is in a directory. -/
def clear (fs : FileSystem) (loc : Location) : FileSystem :=
  { fs with root := fs.root.clear loc }

/-- Takes away a directory that has been cleared; only one that is named can be taken away. -/
def removeCleared (fs : FileSystem) (p : Path) : Except FileError FileSystem :=
  match fs.locate p with
  | .error e => .error e
  | .ok (_, .root) => .error .busy
  | .ok (_, .here) => .error .invalidArgument
  | .ok (_, .up) => .error .notEmpty
  | .ok (dir, .name last _) => .ok (fs.remove dir last)

/-- Removes a directory after all that is in it. If the path led through what was in it, the
directory stays, empty. -/
def removeDirectory (fs : FileSystem) (p : Path) : Except FileError Unit × FileSystem :=
  match fs.locate p with
  | .error e => (.error e, fs)
  | .ok (dir, last) => match fs.node? (last.under dir) with
    | none => (.error .notFound, fs)
    | some (.file _) => (.error .notADirectory, fs)
    | some .directory =>
      let cleared := fs.clear (last.under dir)
      match cleared.removeCleared p with
      | .ok fs => (.ok (), fs)
      | .error .notFound => (.ok (), cleared)
      | .error e => (.error e, cleared)

/-! ## Replacing a file as a whole -/

/-- The directory of a path; that of a bare name is the working directory. -/
def directoryOf (p : Path) : Path :=
  match p.parent? with
  | some parent => if parent.isEmpty then Path.here else parent
  | none => Path.here

/-- The names that new data has until it is complete. -/
def stagingName (n : Nat) : String := ".tmp" ++ toString n

/-- The first of these names that nothing in the directory has and that the path does not go
through. -/
def spareName? (fs : FileSystem) (dir : Location) (p : Path) : Option String :=
  let held := (fs.root.within dir).names
  ((List.range (held.length + p.segments.length + 1)).map stagingName).find? fun name =>
    !held.contains name && !p.segments.contains name

/-- The bytes that are set aside for a slash and the name of staged data. -/
def stagingMargin : Nat := 11

/-- The length of the absolute path of a directory. -/
def absoluteLength (fs : FileSystem) (dir : Path) : Nat :=
  if dir.rooted then dir.text.utf8ByteSize
  else fs.working.foldl (fun n name => n + 1 + name.utf8ByteSize) 0 + 1 + dir.text.utf8ByteSize

/-- Writes new data beside the path that it is meant for, and tells where it is. -/
def stage (fs : FileSystem) (p : Path) (content : Bytes) :
    Except FileError (Location × String × FileSystem) :=
  match check (directoryOf p) with
  | .error e => .error e
  | .ok _ =>
    if longestPath < fs.absoluteLength (directoryOf p) + stagingMargin then .error .nameTooLong
    else match fs.follow (directoryOf p) (names (directoryOf p)) with
      | .error e => .error e
      | .ok dir => match fs.spareName? dir p with
        | none => .error .alreadyExists
        | some name => match fs.create dir name (.file content) with
          | .error e => .error e
          | .ok fs => .ok (dir, name, fs)

/-- Moves a file to a path, over a file that is there. -/
def move (fs : FileSystem) (source : Location) (name : String) (p : Path) :
    Except FileError FileSystem :=
  if p.text.contains '\x00' then .error .invalidArgument
  else match fs.locate p with
    | .error e => .error e
    | .ok (_, .root) | .ok (_, .here) | .ok (_, .up) => .error .busy
    | .ok (_, .name _ true) => .error .notADirectory
    | .ok (dir, .name last false) => match fs.get? dir last, fs.get? source name with
      | some .directory, _ => .error .isADirectory
      | _, none => .error .notFound
      | _, some node => .ok ((fs.remove source name).put dir last node)

/-- Replaces the content of a path as a whole or not at all: new data that cannot be moved to its
place is taken away again. -/
def replaceFile (fs : FileSystem) (p : Path) (content : Bytes) :
    Except FileError Unit × FileSystem :=
  match fs.stage p content with
  | .error e => (.error e, fs)
  | .ok (dir, name, fs) => match fs.move dir name p with
    | .ok fs => (.ok (), fs)
    | .error e => (.error e, fs.remove dir name)

/-- Makes the directories on the way to a path. -/
def makeWay (fs : FileSystem) (p : Path) : Except FileError Unit × FileSystem :=
  match p.parent? with
  | some parent => if parent.isEmpty then (.ok (), fs) else fs.makeDirectories parent
  | none => (.ok (), fs)

/-- Makes sure that there is a file, with an empty one if need be, after the directories on the
way to it. -/
def prepareFile (fs : FileSystem) (p : Path) : Except FileError Unit × FileSystem :=
  match fs.makeWay p with
  | (.error e, fs) => (.error e, fs)
  | (.ok _, fs) => match fs.touch p with
    | .ok fs => (.ok (), fs)
    | .error e => (.error e, fs)

end FileSystem

end JsonCabinet.Files
