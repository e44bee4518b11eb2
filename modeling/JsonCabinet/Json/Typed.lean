import JsonCabinet.Json.Reader

/-!
# Readers of typed values

Integers of 64 bits, truth values, strings, and values of any kind. A value of any kind may nest
at most 127 deep; its objects hold their members in increasing order of keys, each key once. An
object whose first key is reserved stands for the value whose text it quotes.
-/

namespace JsonCabinet.Json.Reader

/-! ## Scalars of one type -/

def signed : Reader Int := scalar .signed fun
  | .number (.integer n) =>
    some (if n ≤ Word.greatestSigned then .ok n else .error (.wrongValue (.integer n) .signed))
  | _ => none

def unsigned : Reader Nat := scalar .unsigned fun
  | .number (.integer n) =>
    some (if 0 ≤ n then .ok n.toNat else .error (.wrongValue (.integer n) .unsigned))
  | _ => none

def boolean : Reader Bool := scalar .boolean fun
  | .boolean b => some (.ok b)
  | _ => none

def string : Reader String := scalar .string fun
  | .string s => some (.ok s)
  | _ => none

def quotedText : Reader String := scalar .rawValue fun
  | .string s => some (.ok s)
  | _ => none

/-! ## Values of any kind -/

/-- The key that marks an object as the quotation of another text. -/
def reservedKey : String := "$serde_json::private::RawValue"

/-- How deep lists and objects may nest. -/
def depthLimit : Nat := 127

/-- Nothing but a closing brace may follow. -/
def closeObject (s : Bytes) : Except Fault Bytes :=
  match Bytes.trimStart s with
  | [] => .error ⟨.endInObject, []⟩
  | b :: rest =>
    if b == 0x7D then .ok rest
    else if b == 0x2C then .error ⟨.trailingComma, rest⟩
    else .error ⟨.trailingCharacters, rest⟩

theorem length_closeObject {s rest : Bytes} (h : closeObject s = .ok rest) :
    rest.length < s.length := by
  have hs := Bytes.length_trimStart_le s
  unfold closeObject at h
  split at h
  · cases h
  · next hb =>
    rw [hb, List.length_cons] at hs
    repeat' split at h
    all_goals cases h
    omega

/-- Reads the quoted text behind a reserved key, with a reader for whole texts. -/
def quotation (whole : Bytes → Except Malformed Value) (s : Bytes) :
    Except Fault (Value × Bytes) :=
  match quotedText.read s with
  | .error fault => .error fault
  | .ok (text, rest) => match whole (Bytes.ofString text) with
    | .error e => .error ⟨.embedded e.cause e.place.line e.place.column, rest⟩
    | .ok v => (closeObject rest).map fun rest' => (v, rest')

theorem length_quotation {whole : Bytes → Except Malformed Value} {s rest : Bytes} {v : Value}
    (h : quotation whole s = .ok (v, rest)) : rest.length < s.length := by
  unfold quotation at h
  split at h
  · cases h
  · next hq =>
    split at h
    · cases h
    · obtain ⟨r, hr, he⟩ := map_eq_ok h
      cases he
      exact Nat.lt_trans (length_closeObject hr) (quotedText.shrinks hq)

/-- Reads an object whose brace has been opened. -/
def valueObject (whole : Bytes → Except Malformed Value) (value : Reader Value) (s : Bytes) :
    Except Fault (Value × Bytes) :=
  match Bytes.trimStart s with
  | 0x22 :: rest => match key rest with
    | .error fault => .error fault
    | .ok (name, rest') =>
      if name = reservedKey then quotation whole rest'
      else (objectBody value s).map fun (ms, rest) => (.object (Table.ofList ms).entries, rest)
  | _ => (objectBody value s).map fun (ms, rest) => (.object (Table.ofList ms).entries, rest)

theorem length_valueObject {whole : Bytes → Except Malformed Value} {value : Reader Value}
    {s rest : Bytes} {v : Value} (h : valueObject whole value s = .ok (v, rest)) :
    rest.length < s.length := by
  have hs := Bytes.length_trimStart_le s
  unfold valueObject at h
  split at h
  · next hb =>
    rw [hb, List.length_cons] at hs
    split at h
    · cases h
    · next hk =>
      split at h
      · have h₁ := length_key hk
        have h₂ := length_quotation h
        omega
      · obtain ⟨⟨ms, r⟩, hr, he⟩ := map_eq_ok h
        cases he
        exact length_objectBody hr
  · obtain ⟨⟨ms, r⟩, hr, he⟩ := map_eq_ok h
    cases he
    exact length_objectBody hr

/-- Reads a value that nests at most `depth` deep; `whole` reads quoted texts. -/
def value (whole : Bytes → Except Malformed Value) : Nat → Reader Value
  | 0 => {
    read := fun s => match Bytes.trimStart s with
      | [] => .error ⟨.endInValue, []⟩
      | b :: rest =>
        if b == 0x5B || b == 0x7B then .error ⟨.tooDeep, rest⟩ else readScalar (b :: rest)
    shrinks := fun {s a rest} h => by
      have hs := Bytes.length_trimStart_le s
      split at h
      · cases h
      · next hb =>
        rw [hb] at hs
        split at h
        · cases h
        · exact Nat.lt_of_lt_of_le (length_readScalar h) hs }
  | depth + 1 => {
    read := fun s => match Bytes.trimStart s with
      | [] => .error ⟨.endInValue, []⟩
      | b :: rest =>
        if b == 0x5B then
          (listBody (value whole depth) rest).map fun (items, rest') => (.array items, rest')
        else if b == 0x7B then valueObject whole (value whole depth) rest
        else readScalar (b :: rest)
    shrinks := fun {s a rest} h => by
      have hs := Bytes.length_trimStart_le s
      split at h
      · cases h
      · next hb =>
        rw [hb] at hs
        split at h
        · obtain ⟨⟨items, r⟩, hr, he⟩ := map_eq_ok h
          cases he
          exact Nat.lt_of_lt_of_le (Nat.lt_succ_of_lt (length_listBody hr)) hs
        · split at h
          · exact Nat.lt_of_lt_of_le (Nat.lt_succ_of_lt (length_valueObject h)) hs
          · exact Nat.lt_of_lt_of_le (length_readScalar h) hs }

/-- Reads a whole text in which quoted texts are nested less than `levels` deep. -/
def quotedValue : Nat → Bytes → Except Malformed Value
  | 0, s => .error (Fault.locate s ⟨.tooDeep, s⟩)
  | levels + 1, s => (value (quotedValue levels) depthLimit).readAll s

end Reader

/-- The value of a whole text. A quoted text is shorter than the text that quotes it. -/
def Value.ofText (s : Bytes) : Except Malformed Value :=
  Reader.quotedValue (s.length + 1) s

end JsonCabinet.Json
