import JsonCabinet.Json.Layout
import JsonCabinet.Json.Numeral

/-!
# JSON values

A value apart from the way it is written. The members of an object stand in increasing order of
their keys when the value has been read from a text; writing keeps the order that they have.
A value is written in front of what follows it, so that nothing is copied at each level of nesting;
lists and objects come out laid out from their parts (`write_array`, `write_object`).
-/

namespace JsonCabinet.Json

inductive Value
  | null
  | boolean (b : Bool)
  | number (n : Number)
  | string (s : String)
  | array (items : List Value)
  | object (members : List (String × Value))
  deriving Repr

instance : Inhabited Value := ⟨.null⟩

def Number.write : Number → String
  | .integer n => toString n
  | .float x => writeFloat x

namespace Value

mutual

/-- The value without spaces, in front of a text. -/
def writeOnto : Value → Bytes → Bytes
  | .null, t => Bytes.ofString "null" ++ t
  | .boolean true, t => Bytes.ofString "true" ++ t
  | .boolean false, t => Bytes.ofString "false" ++ t
  | .number n, t => Bytes.ofString n.write ++ t
  | .string s, t => Quoted.write s ++ t
  | .array items, t => 0x5B :: writeItems items (0x5D :: t)
  | .object members, t => 0x7B :: writeMembers members (0x7D :: t)

/-- Values with a comma in front of each but the first. -/
def writeItems : List Value → Bytes → Bytes
  | [], t => t
  | v :: rest, t => v.writeOnto (writeMoreItems rest t)

/-- Values with a comma in front of each. -/
def writeMoreItems : List Value → Bytes → Bytes
  | [], t => t
  | v :: rest, t => 0x2C :: v.writeOnto (writeMoreItems rest t)

/-- Members with a comma in front of each but the first. -/
def writeMembers : List (String × Value) → Bytes → Bytes
  | [], t => t
  | (key, v) :: rest, t => Quoted.write key ++ 0x3A :: v.writeOnto (writeMoreMembers rest t)

/-- Members with a comma in front of each. -/
def writeMoreMembers : List (String × Value) → Bytes → Bytes
  | [], t => t
  | (key, v) :: rest, t =>
    0x2C :: (Quoted.write key ++ 0x3A :: v.writeOnto (writeMoreMembers rest t))

end

def write (v : Value) : Bytes := v.writeOnto []

/-! ## The parts of what is written -/

mutual

theorem writeOnto_append (v : Value) (t u : Bytes) : v.writeOnto (t ++ u) = v.writeOnto t ++ u := by
  cases v with
  | null => simp [writeOnto]
  | boolean b => cases b <;> simp [writeOnto]
  | number n => simp [writeOnto]
  | string s => simp [writeOnto]
  | array items => simp [writeOnto, ← writeItems_append]
  | object members => simp [writeOnto, ← writeMembers_append]

theorem writeItems_append (items : List Value) (t u : Bytes) :
    writeItems items (t ++ u) = writeItems items t ++ u := by
  cases items with
  | nil => rfl
  | cons v rest => rw [writeItems, writeItems, writeMoreItems_append rest, writeOnto_append v]

theorem writeMoreItems_append (items : List Value) (t u : Bytes) :
    writeMoreItems items (t ++ u) = writeMoreItems items t ++ u := by
  cases items with
  | nil => rfl
  | cons v rest =>
    rw [writeMoreItems, writeMoreItems, writeMoreItems_append rest, writeOnto_append v,
      List.cons_append]

theorem writeMembers_append (members : List (String × Value)) (t u : Bytes) :
    writeMembers members (t ++ u) = writeMembers members t ++ u := by
  cases members with
  | nil => rfl
  | cons m rest =>
    obtain ⟨key, v⟩ := m
    rw [writeMembers, writeMembers, writeMoreMembers_append rest, writeOnto_append v]
    simp

theorem writeMoreMembers_append (members : List (String × Value)) (t u : Bytes) :
    writeMoreMembers members (t ++ u) = writeMoreMembers members t ++ u := by
  cases members with
  | nil => rfl
  | cons m rest =>
    obtain ⟨key, v⟩ := m
    rw [writeMoreMembers, writeMoreMembers, writeMoreMembers_append rest, writeOnto_append v]
    simp

end

theorem writeOnto_eq (v : Value) (t : Bytes) : v.writeOnto t = v.write ++ t := by
  rw [write, ← writeOnto_append, List.nil_append]

theorem writeMoreItems_eq (items : List Value) (t : Bytes) :
    writeMoreItems items t = ((items.map write).flatMap fun p => 0x2C :: p) ++ t := by
  induction items with
  | nil => rfl
  | cons v rest ih => simp [writeMoreItems, writeOnto_eq, ih]

theorem writeMoreMembers_eq (members : List (String × Value)) (t : Bytes) :
    writeMoreMembers members t =
      ((members.map fun m => Layout.compact.writeMember (m.1, m.2.write)).flatMap
        fun p => 0x2C :: p) ++ t := by
  induction members with
  | nil => rfl
  | cons m rest ih =>
    simp [writeMoreMembers, writeOnto_eq, ih, Layout.writeMember, Layout.compact]

/-- A list is laid out from its items as they are written alone. -/
theorem write_array (items : List Value) :
    (array items).write = writeList (items.map write) := by
  cases items with
  | nil => rfl
  | cons v rest =>
    simp [write.eq_def (array _), writeOnto, writeItems, writeOnto_eq, writeMoreItems_eq,
      writeList, commaSeparated]

/-- An object is laid out from its members as they are written alone. -/
theorem write_object (members : List (String × Value)) :
    (object members).write =
      Layout.compact.writeObject (members.map fun m => (m.1, m.2.write)) := by
  cases members with
  | nil => rfl
  | cons m rest =>
    simp [write.eq_def (object _), writeOnto, writeMembers, writeOnto_eq, writeMoreMembers_eq,
      Layout.writeObject, commaSeparated, Layout.writeMember, Layout.compact, Function.comp_def]

end Value

end JsonCabinet.Json
