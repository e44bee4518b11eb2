import JsonCabinet.Files.Path
import JsonCabinet.Snapshot

/-!
# Settings of a store

Where the contents are kept, when they are written, and how names and pages are treated. Settings
are put together one by one, a later one replacing an earlier one of its kind.
-/

namespace JsonCabinet

open Files (Path)

/-! ## The parts -/

inductive Backing
  /-- The contents live in memory only. -/
  | memory
  /-- The contents are kept in one file. -/
  | file (path : Path)
  deriving DecidableEq, Repr

/-- The first segment of a path that stands for no file. -/
def memoryName : String := "memory"

/-- The path has the reserved name for its only component. -/
def isReserved (p : Path) : Bool :=
  !p.rooted && match p.segments with
    | [] => false
    | name :: rest => name == memoryName && rest.all Path.isBlank

/-- The empty path and the reserved one mean memory. -/
def Backing.ofText (text : String) : Backing :=
  if text.isEmpty || isReserved (.ofText text) then .memory else .file (.ofText text)

def Backing.isMemory : Backing → Bool
  | .memory => true
  | .file _ => false

inductive FlushPolicy
  /-- Every change is written before it is answered. -/
  | auto
  /-- Changes are written when this is asked for. -/
  | manual
  deriving DecidableEq, Repr

/-- What an empty collection name means. -/
inductive EmptyNames
  | substitute
  | reject
  deriving DecidableEq, Repr

structure Settings where
  backing : Backing
  flush : FlushPolicy
  format : Snapshot.Format
  maxPageSize : Nat
  defaultCollection : String
  emptyNames : EmptyNames
  deriving DecidableEq, Repr

namespace Settings

def initial : Settings where
  backing := .memory
  flush := .auto
  format := .pretty
  maxPageSize := 20
  defaultCollection := "default"
  emptyNames := .substitute

/-! ## Putting settings together -/

inductive Choice
  | path (text : String)
  | inMemory
  | flushPolicy (policy : FlushPolicy)
  | manualFlush
  | format (format : Snapshot.Format)
  | maxPageSize (size : Nat)
  | defaultCollection (name : String)
  | emptyNames (policy : EmptyNames)
  deriving DecidableEq, Repr

def choose (s : Settings) : Choice → Settings
  | .path text => { s with backing := .ofText text }
  | .inMemory => { s with backing := .memory }
  | .flushPolicy policy => { s with flush := policy }
  | .manualFlush => { s with flush := .manual }
  | .format format => { s with format := format }
  | .maxPageSize size => { s with maxPageSize := size }
  | .defaultCollection name => { s with defaultCollection := name }
  | .emptyNames policy => { s with emptyNames := policy }

def ofChoices (choices : List Choice) : Settings := choices.foldl choose initial

/-! ## Validity -/

inductive Fault
  | zeroPageSize
  | emptyDefaultCollection
  deriving DecidableEq, Repr

def Fault.text : Fault → String
  | .zeroPageSize => "max_page_size must be at least 1"
  | .emptyDefaultCollection =>
    "default_collection cannot be empty when substituting empty names"

/-- The first fault of the settings, if they have one. -/
def validate (s : Settings) : Except Fault Unit :=
  if s.maxPageSize = 0 then .error .zeroPageSize
  else if s.emptyNames = .substitute ∧ s.defaultCollection = "" then
    .error .emptyDefaultCollection
  else .ok ()

/-- Every change is written at once. -/
def writesThrough (s : Settings) : Bool := !s.backing.isMemory && s.flush = .auto

end Settings

end JsonCabinet
