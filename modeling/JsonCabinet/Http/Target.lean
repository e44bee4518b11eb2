import JsonCabinet.Bytes

/-!
# Request targets

The target of a request is cut into a path and a query; a fragment is dropped. An absolute target
has its path behind the authority.
-/

namespace JsonCabinet.Http

def slash : UInt8 := 0x2F

/-- What stands in front of the first of the given bytes, and what follows it. -/
def cutAt (stop : UInt8) (s : Bytes) : Bytes × Option Bytes :=
  match s.dropWhile (· != stop) with
  | [] => (s, none)
  | _ :: rest => (s.takeWhile (· != stop), some rest)

structure Target where
  path : Bytes
  query : Bytes
  deriving DecidableEq, Repr

/-- The path and the query of a target that begins with its path. -/
def Target.ofOrigin (s : Bytes) : Target :=
  let (path, query) := cutAt 0x3F s
  ⟨path, query.getD []⟩

/-- What follows the first `://`. -/
def behindScheme : Bytes → Option Bytes
  | 0x3A :: 0x2F :: 0x2F :: rest => some rest
  | _ :: rest => behindScheme rest
  | [] => none

/-- A target that names only an authority has no path. -/
def Target.ofBytes (s : Bytes) : Target :=
  let s := (cutAt 0x23 s).1
  match s with
  | [] => ⟨[], []⟩
  | b :: _ =>
    if b == slash || b == 0x2A then .ofOrigin s
    else match behindScheme s with
      | none => ⟨[], []⟩
      | some rest =>
        let origin := rest.dropWhile fun b => b != slash && b != 0x3F
        match origin with
        | [] => ⟨[slash], []⟩
        | b :: _ => if b == slash then .ofOrigin origin else .ofOrigin (slash :: origin)

/-! ## Percent escapes -/

/-- Each `%` with two hexadecimal digits becomes the byte that they name; any other `%` stays. -/
def percentDecode : Bytes → Bytes
  | [] => []
  | [b] => [b]
  | [b, c] => [b, c]
  | b :: h :: l :: rest =>
    if b == 0x25 then
      match Bytes.hexValue? h, Bytes.hexValue? l with
      | some high, some low => UInt8.ofNat (16 * high + low) :: percentDecode rest
      | _, _ => b :: percentDecode (h :: l :: rest)
    else b :: percentDecode (h :: l :: rest)

end JsonCabinet.Http
