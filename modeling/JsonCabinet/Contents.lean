import JsonCabinet.Document
import JsonCabinet.Table

/-!
# Contents of a store

A store holds collections by name, and a collection holds documents by key. A collection may be
empty, which is not the same as being absent.
-/

namespace JsonCabinet

abbrev Collection := Table Document

abbrev Contents := Table Collection

namespace Contents

def empty : Contents := Table.empty

/-- The document of a key, if the collection exists and holds one. -/
def document? (t : Contents) (collection key : String) : Option Document :=
  (t.get? collection).bind (·.get? key)

/-- Stores a document, in a new collection if need be. -/
def put (t : Contents) (collection key : String) (d : Document) : Contents :=
  t.insert collection (((t.get? collection).getD Table.empty).insert key d)

/-- A collection exists in the union if it exists in either; of two documents for one key that of
the second counts. -/
def merge (t u : Contents) : Contents :=
  t.unionWith (Table.unionWith fun _ theirs => theirs) u

end Contents

end JsonCabinet
