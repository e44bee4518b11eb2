import JsonCabinet.Store

/-!
# Backends

The four calls that any store of documents answers, whatever it is made of. A backend is a
function from a call and its own state to the answer and the state after it.
-/

namespace JsonCabinet

inductive Call
  | set (collection key : String) (d : Document)
  | get (collection key : String)
  | delete (collection key : String)
  | list (collection : String) (limit page : Int)
  deriving DecidableEq

/-- What a call gives when it succeeds. -/
abbrev Call.Answer : Call → Type
  | .set .. => Unit
  | .get .. => Option Document
  | .delete .. => Bool
  | .list .. => ListPage

structure Backend (σ : Type) where
  perform : (call : Call) → σ → Except StoreError call.Answer × σ

namespace Backend

variable {σ : Type}

/-- Answers every call with the same error. -/
def failing (e : StoreError) : Backend σ := ⟨fun _ state => (.error e, state)⟩

/-- Keeps the calls that were made, in order. -/
def recording (b : Backend σ) : Backend (σ × List Call) where
  perform call state :=
    let (answer, inner) := b.perform call state.1
    (answer, inner, state.2 ++ [call])

end Backend

def Outcome.toPair {α : Type} (o : Outcome α) : Except StoreError α × Store × Files.FileSystem :=
  (o.result, o.store, o.files)

/-- A store together with the file system that its file is in. -/
def Store.backend : Backend (Store × Files.FileSystem) where
  perform
    | .set c k d, (s, fs) => (s.set fs c k d).toPair
    | .get c k, (s, fs) => (s.get fs c k).toPair
    | .delete c k, (s, fs) => (s.delete fs c k).toPair
    | .list c limit page, (s, fs) => (s.list c limit page, s, fs)

end JsonCabinet
