import JsonCabinet.Json.Quoted

/-!
# Laying out lists and objects

Lists and objects are put together from parts that are written already. A layout says what stands
in front of each member of an object, between a key and its value, and behind the last member.
-/

namespace JsonCabinet.Json

/-- The parts with a comma in front of each but the first. -/
def commaSeparated : List Bytes → Bytes
  | [] => []
  | part :: parts => part ++ parts.flatMap fun p => 0x2C :: p

def writeList (parts : List Bytes) : Bytes := 0x5B :: (commaSeparated parts ++ [0x5D])

structure Layout where
  lead : Bytes
  colon : Bytes
  tail : Bytes
  deriving DecidableEq, Repr

namespace Layout

/-- No spaces at all. -/
def compact : Layout := ⟨[], [0x3A], []⟩

def indentation (depth : Nat) : Bytes := List.replicate (4 * depth) 0x20

/-- A line for each member, indented by four blanks more than the object that stands at `depth`. -/
def indented (depth : Nat) : Layout :=
  ⟨0x0A :: indentation (depth + 1), [0x3A, 0x20], 0x0A :: indentation depth⟩

def writeMember (layout : Layout) (member : String × Bytes) : Bytes :=
  layout.lead ++ (Quoted.write member.1 ++ (layout.colon ++ member.2))

def writeObject (layout : Layout) (members : List (String × Bytes)) : Bytes :=
  0x7B :: (commaSeparated (members.map layout.writeMember) ++
    ((if members.isEmpty then [] else layout.tail) ++ [0x7D]))

end Layout

end JsonCabinet.Json
