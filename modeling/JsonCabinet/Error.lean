import JsonCabinet.Files.Error
import JsonCabinet.Json.Fault
import JsonCabinet.Settings

/-!
# Failures of a store

Why an operation on a store fails, and how this is told. A backend of another kind may tell
reasons in words of its own.
-/

namespace JsonCabinet

/-- What is wrong with the arguments of a call. -/
inductive BadInput
  | emptyCollection
  | emptyKey
  | notADocument (e : Json.Malformed)
  | told (text : String)
  deriving DecidableEq, Repr

/-- What could not be converted. -/
inductive BadForm
  | snapshot (e : Json.Malformed)
  | value (e : Json.Malformed)
  | told (text : String)
  deriving DecidableEq, Repr

inductive BadSettings
  | fault (f : Settings.Fault)
  | told (text : String)
  deriving DecidableEq, Repr

inductive StoreError
  | collectionNotFound (name : String)
  | itemNotFound (collection key : String)
  | validation (why : BadInput)
  | io (why : Files.FileError)
  | serialization (why : BadForm)
  | config (why : BadSettings)
  | runtime (text : String)
  deriving DecidableEq, Repr

def BadInput.text : BadInput → String
  | .emptyCollection => "collection cannot be empty"
  | .emptyKey => "key cannot be empty"
  | .notADocument e => "invalid JSON document: " ++ e.message
  | .told text => text

def BadForm.text : BadForm → String
  | .snapshot e => "unable to decode snapshot: " ++ e.message
  | .value e => e.message
  | .told text => text

def BadSettings.text : BadSettings → String
  | .fault f => f.text
  | .told text => text

namespace StoreError

def message : StoreError → String
  | .collectionNotFound name => "collection not found: " ++ name
  | .itemNotFound _ _ => "item not found"
  | .validation why => "validation error: " ++ why.text
  | .io why => "IO error: " ++ why.message
  | .serialization why => "Serialization error: " ++ why.text
  | .config why => "Configuration error: " ++ why.text
  | .runtime text => "Runtime error: " ++ text

/-- What the call addressed does not exist. -/
def isNotFound : StoreError → Bool
  | .collectionNotFound _ | .itemNotFound _ _ => true
  | _ => false

/-- The caller is to blame. -/
def isValidation : StoreError → Bool
  | .validation _ => true
  | _ => false

end StoreError

/-- A text that is handed in as a document and is none is the caller's fault. -/
def Document.accept (r : Except Json.Malformed Document) : Except StoreError Document :=
  r.mapError fun e => .validation (.notADocument e)

/-- A document that cannot be converted to a value, or a value to a document, is told apart from a
text that is no document. -/
def Document.converted {α : Type} (r : Except Json.Malformed α) : Except StoreError α :=
  r.mapError fun e => .serialization (.value e)

end JsonCabinet
