import JsonCabinet.Store

/-!
# Operations

The operations of a store as data, their answers, and runs of them. A run keeps the answer of each
operation and goes on after a failure, which is an answer like any other.
-/

namespace JsonCabinet

open Files

inductive Operation
  | set (collection key : String) (d : Document)
  | get (collection key : String)
  | delete (collection key : String)
  | list (collection : String) (limit page : Int)
  | dropCollection (collection : String)
  | collections
  | flush
  deriving DecidableEq

/-- What an operation tells when it succeeds. -/
inductive Answer
  | done
  | document (d? : Option Document)
  | removed (wasThere : Bool)
  | page (listing : ListPage)
  | dropped (wasThere : Bool)
  | names (names : List String)
  deriving DecidableEq

def Outcome.map {α β : Type} (f : α → β) (o : Outcome α) : Outcome β :=
  ⟨o.result.map f, o.store, o.files⟩

namespace Store

def perform (s : Store) (fs : FileSystem) : Operation → Outcome Answer
  | .set c k d => (s.set fs c k d).map fun _ => .done
  | .get c k => (s.get fs c k).map .document
  | .delete c k => (s.delete fs c k).map .removed
  | .list c limit page => ⟨(s.list c limit page).map .page, s, fs⟩
  | .dropCollection c => (s.dropCollection fs c).map .dropped
  | .collections => ⟨.ok (.names s.collections), s, fs⟩
  | .flush => (s.flush fs).map fun _ => .done

/-- The answers to operations in order, with the store and the files after the last of them. -/
def run (s : Store) (fs : FileSystem) :
    List Operation → List (Except StoreError Answer) × Store × FileSystem
  | [] => ([], s, fs)
  | op :: ops =>
    let o := s.perform fs op
    let (answers, after) := o.store.run o.files ops
    (o.result :: answers, after)

end Store

end JsonCabinet
