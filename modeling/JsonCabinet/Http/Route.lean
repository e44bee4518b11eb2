import JsonCabinet.Http.Pattern

/-!
# Routes

All requests of a binding lie under one base path, which is a pattern. The base itself, with or
without a slash, is the collection; anything longer is an item, and its last segment is the key.
Routes are matched on the path as it was sent, and captures are decoded afterwards.
-/

namespace JsonCabinet.Http

def trimSlashes (s : Bytes) : Bytes :=
  ((s.dropWhile (· == slash)).reverse.dropWhile (· == slash)).reverse

/-- The base path with one slash in front and none behind; empty for the root. -/
def normalBase (base : String) : Bytes :=
  match trimSlashes (Bytes.ofString base) with
  | [] => []
  | s => slash :: s

/-- What a path addresses, before it is decoded: an item comes with the captures of the base, and
at their end what follows the base. -/
inductive Route
  | collection
  | item (captures : List Capture)
  deriving DecidableEq, Repr

/-- The name under which what follows the base is captured. -/
def restName : String := "path"

def Route.match? (base path : Bytes) : Option Route :=
  match (Pattern.ofBytes base).match? path with
  | none => none
  | some (_, []) => if base.isEmpty then none else some .collection
  | some (captures, b :: rest) =>
    if b == slash then
      some (if rest.isEmpty then .collection else .item (captures ++ [⟨restName, rest⟩]))
    else none

/-- The decoded values of captures, or the name of the first that is not UTF-8. -/
def decodeCaptures : List Capture → Except String (List String)
  | [] => .ok []
  | c :: captures => match Bytes.toString? (percentDecode c.value) with
    | some text => (decodeCaptures captures).map (text :: ·)
    | none => .error c.name

/-- What a request addresses: a key, or the collection. -/
abbrev Addressee := Option String

/-- What follows the last slash. -/
def lastSegment (text : String) : String :=
  String.ofList (text.toList.reverse.takeWhile (· ≠ '/')).reverse

/-- What follows the base addresses its last segment, unless that is empty. -/
def addresseeOf (rest : String) : Addressee :=
  if lastSegment rest = "" then none else some (lastSegment rest)

end JsonCabinet.Http
