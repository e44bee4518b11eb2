import JsonCabinet.Contents

/-!
# Snapshots

The whole contents of a store as one JSON text: an object of collections, each an object of
documents. Names stand in increasing order and documents as they are, so equal contents have equal
snapshots.
-/

namespace JsonCabinet.Snapshot

open Json

inductive Format
  /-- A line for each name, indented by four blanks for each level. -/
  | pretty
  /-- No spaces but those within documents. -/
  | compact
  deriving DecidableEq, Repr

def Format.layout (format : Format) (depth : Nat) : Layout :=
  match format with
  | .pretty => .indented depth
  | .compact => .compact

def encodeCollection (format : Format) (c : Collection) : Bytes :=
  (format.layout 1).writeObject (c.entries.map fun (key, d) => (key, d.bytes))

def encode (format : Format) (t : Contents) : Bytes :=
  (format.layout 0).writeObject (t.entries.map fun (name, c) => (name, encodeCollection format c))

/-- Spaces of a blank file; the form feed is one of them. -/
def isBlank (b : UInt8) : Bool := Bytes.isSpace b || b == 0x0C

def reader : Reader Contents := .table (.table Document.reader)

/-- A blank text holds nothing. -/
def decode (s : Bytes) : Except Malformed Contents :=
  if s.all isBlank then .ok Contents.empty else reader.readAll s

end JsonCabinet.Snapshot
