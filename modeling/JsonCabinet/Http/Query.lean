import JsonCabinet.Http.Target
import JsonCabinet.Text.Integer

/-!
# Query parameters

A query is a list of pairs in the manner of a form. Only `limit` and `page` count; each may be
given once and is an integer of 64 bits. Pairs are looked at from left to right.
-/

namespace JsonCabinet.Http

/-- The pieces between the given bytes. -/
def splitAt (stop : UInt8) : Bytes → List Bytes
  | [] => [[]]
  | b :: rest =>
    if b == stop then [] :: splitAt stop rest
    else match splitAt stop rest with
      | [] => [[b]]
      | s :: pieces => (b :: s) :: pieces

/-- In a form a `+` is a blank. -/
def formDecode (s : Bytes) : Bytes :=
  percentDecode (s.map fun b => if b == 0x2B then 0x20 else b)

/-- The pairs of a query; a name without `=` has the empty value. -/
def formPairs (query : Bytes) : List (Bytes × Bytes) :=
  ((splitAt 0x26 query).filter (· ≠ [])).map fun piece =>
    let (name, value) := cutAt 0x3D piece
    (formDecode name, formDecode (value.getD []))

structure ListParams where
  limit : Option Int
  page : Option Int
  deriving DecidableEq, Repr

inductive BadQuery
  | duplicate (field : String)
  | integer (e : Text.BadInteger)
  deriving DecidableEq, Repr

def BadQuery.message : BadQuery → String
  | .duplicate field => s!"duplicate field `{field}`"
  | .integer e => e.message

namespace ListParams

/-- Takes one pair into the parameters. -/
def take (params : ListParams) (pair : Bytes × Bytes) : Except BadQuery ListParams :=
  if pair.1 = Bytes.ofString "limit" then
    if params.limit.isSome then .error (.duplicate "limit")
    else match Text.readInteger pair.2 with
      | .ok n => .ok { params with limit := some n }
      | .error e => .error (.integer e)
  else if pair.1 = Bytes.ofString "page" then
    if params.page.isSome then .error (.duplicate "page")
    else match Text.readInteger pair.2 with
      | .ok n => .ok { params with page := some n }
      | .error e => .error (.integer e)
  else .ok params

def takeAll (params : ListParams) : List (Bytes × Bytes) → Except BadQuery ListParams
  | [] => .ok params
  | pair :: pairs => match params.take pair with
    | .ok params => params.takeAll pairs
    | .error e => .error e

def ofQuery (query : Bytes) : Except BadQuery ListParams :=
  takeAll ⟨none, none⟩ (formPairs query)

end ListParams

end JsonCabinet.Http
