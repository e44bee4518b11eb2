import JsonCabinet.Contents
import JsonCabinet.Word

/-!
# Pages of a collection

A listing is cut into pages in the order of keys. A request for a page names a limit and a page
number; both are resolved against the greatest page size before the page is cut.
-/

namespace JsonCabinet

/-- A resolved request: the number of entries, the page counted from one, and the entries before
it. -/
structure PageWindow where
  limit : Nat
  page : Nat
  offset : Nat
  deriving DecidableEq, Repr

namespace PageWindow

/-- A limit out of range becomes the greatest one, a page below one the first, and an offset out
of range the greatest. -/
def clamp (limit page : Int) (greatest : Nat) : PageWindow :=
  let limit := if 1 ≤ limit ∧ limit ≤ greatest then limit.toNat else greatest
  let page := if page < 1 then 1 else page.toNat
  ⟨limit, page, min ((page - 1) * limit) Word.greatest⟩

/-- The entries of a table within the window. -/
def slice {α : Type} (w : PageWindow) (t : Table α) : Table α where
  entries := (t.entries.drop w.offset).take w.limit
  sorted := t.sorted.sublist ((List.take_sublist _ _).trans (List.drop_sublist _ _))

end PageWindow

/-- One page of a collection, and the number of entries of the whole collection. -/
structure ListPage where
  items : Collection
  total : Nat
  deriving DecidableEq

namespace ListPage

/-- The members of the page as they are written in an object. -/
def members (p : ListPage) : List (String × Bytes) :=
  [("items", Json.Layout.compact.writeObject (p.items.entries.map fun (key, d) => (key, d.bytes))),
    ("total", Bytes.ofString (toString p.total))]

/-- The page as an object without spaces. -/
def write (p : ListPage) : Bytes := Json.Layout.compact.writeObject p.members

end ListPage

end JsonCabinet
