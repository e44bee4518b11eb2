import JsonCabinet.Json.Value
import JsonCabinet.Table
import JsonCabinet.Text.Display

/-!
# Readers

A reader takes a value of one kind off the front of a text and always takes something. Readers of
lists and objects are built from readers of their items, so the shape of a text is checked while
it is read, and the first fault is the one that is met first.
-/

namespace JsonCabinet.Json

structure Reader (α : Type) where
  read : Bytes → Except Fault (α × Bytes)
  shrinks : ∀ {s : Bytes} {a : α} {rest : Bytes}, read s = .ok (a, rest) → rest.length < s.length

/-! ## Scalars -/

/-- The rest of a word has to follow. -/
def readWord : Bytes → Bytes → Except Fault Bytes
  | [], s => .ok s
  | _ :: _, [] => .error ⟨.endInValue, []⟩
  | c :: word, b :: rest => if b == c then readWord word rest else .error ⟨.expectedWord, rest⟩

/-- Reads a value that is neither a list nor an object and begins at once. -/
def readScalar : Bytes → Except Fault (Value × Bytes)
  | [] => .error ⟨.endInValue, []⟩
  | b :: rest =>
    if b == 0x22 then (Quoted.read rest).map fun (s, rest') => (.string s, rest')
    else if b == 0x2D || Bytes.isDigit b then
      match Numeral.read (b :: rest) with
      | .ok (a, rest') => (a.value rest').map fun n => (.number n, rest')
      | .error fault => .error fault
    else if b == 0x6E then (readWord [0x75, 0x6C, 0x6C] rest).map fun r => (.null, r)
    else if b == 0x74 then (readWord [0x72, 0x75, 0x65] rest).map fun r => (.boolean true, r)
    else if b == 0x66 then
      (readWord [0x61, 0x6C, 0x73, 0x65] rest).map fun r => (.boolean false, r)
    else .error ⟨.expectedValue, rest⟩

theorem length_readWord_le {word s rest : Bytes} (h : readWord word s = .ok rest) :
    rest.length ≤ s.length := by
  induction word generalizing s with
  | nil => cases h; exact Nat.le_refl _
  | cons c word ih =>
    cases s with
    | nil => cases h
    | cons b s =>
      rw [readWord] at h
      split at h
      · exact Nat.le_succ_of_le (ih h)
      · cases h

theorem map_eq_ok {ε α β : Type} {f : α → β} {x : Except ε α} {b : β} (h : x.map f = .ok b) :
    ∃ a, x = .ok a ∧ f a = b := by
  cases x with
  | error e => cases h
  | ok a => exact ⟨a, rfl, Except.ok.inj h⟩

theorem length_map_readWord_lt {word s rest : Bytes} {b : UInt8} {v w : Value}
    (h : ((readWord word s).map fun r => (v, r)) = .ok (w, rest)) :
    rest.length < (b :: s).length := by
  obtain ⟨r, hr, he⟩ := map_eq_ok h
  cases he
  exact Nat.lt_succ_of_le (length_readWord_le hr)

theorem length_readScalar {s rest : Bytes} {v : Value} (h : readScalar s = .ok (v, rest)) :
    rest.length < s.length := by
  cases s with
  | nil => cases h
  | cons b s =>
    rw [readScalar] at h
    split at h
    · obtain ⟨⟨t, r⟩, hr, he⟩ := map_eq_ok h
      cases he
      exact Nat.lt_succ_of_lt (Quoted.length_lt_of_read hr)
    · split at h
      · split at h
        · next hr =>
          obtain ⟨n, _, he⟩ := map_eq_ok h
          cases he
          exact Numeral.length_read hr
        · cases h
      · repeat' split at h
        · exact length_map_readWord_lt h
        · exact length_map_readWord_lt h
        · exact length_map_readWord_lt h
        · cases h

/-! ## A value of another kind -/

/-- How a message shows a value that is not wanted. -/
def Value.found : Value → Found
  | .null => .null
  | .boolean b => .boolean b
  | .number (.integer n) => .integer n
  | .number (.float x) => .float (writeFloat x)
  | .string s => .string (Text.display s)
  | .array _ => .sequence
  | .object _ => .map

/-- The fault of a text whose value, which begins at once, is not of the wanted kind. A scalar is
read first; a list or an object is not. -/
def mismatch (wanted : Wanted) : Bytes → Fault
  | [] => ⟨.endInValue, []⟩
  | b :: rest =>
    if b == 0x5B then ⟨.wrongType .sequence wanted, b :: rest⟩
    else if b == 0x7B then ⟨.wrongType .map wanted, b :: rest⟩
    else match readScalar (b :: rest) with
      | .ok (v, rest') => ⟨.wrongType v.found wanted, rest'⟩
      | .error fault => fault

namespace Reader

variable {α : Type}

/-- Reads a scalar that `accept` converts; it may refuse a value with a cause of its own. -/
def scalar (wanted : Wanted) (accept : Value → Option (Except Cause α)) : Reader α where
  read s := match readScalar (Bytes.trimStart s) with
    | .ok (v, rest) => match accept v with
      | some (.ok a) => .ok (a, rest)
      | some (.error cause) => .error ⟨cause, rest⟩
      | none => .error (mismatch wanted (Bytes.trimStart s))
    | .error _ => .error (mismatch wanted (Bytes.trimStart s))
  shrinks {s a rest} h := by
    split at h
    · next hr =>
      split at h
      · cases h
        exact Nat.lt_of_lt_of_le (length_readScalar hr) (Bytes.length_trimStart_le s)
      · cases h
      · cases h
    · cases h

/-! ## Lists -/

set_option linter.unusedVariables false in
/-- Reads on behind an item; the items so far are kept last one first. -/
def items (item : Reader α) (read : List α) (s : Bytes) : Except Fault (List α × Bytes) :=
  match hs : Bytes.trimStart s with
  | [] => .error ⟨.endInList, []⟩
  | b :: rest =>
    if b == 0x5D then .ok (read.reverse, rest)
    else if b == 0x2C then
      match hr : Bytes.trimStart rest with
      | [] => .error ⟨.endInValue, []⟩
      | c :: rest' =>
        if c == 0x5D then .error ⟨.trailingComma, rest'⟩
        else match hi : item.read (c :: rest') with
          | .ok (a, rest'') => items item (a :: read) rest''
          | .error fault => .error fault
    else .error ⟨.expectedCommaInList, rest⟩
termination_by s.length
decreasing_by
  have h₁ := item.shrinks hi
  have h₂ := Bytes.length_trimStart_le rest
  have h₃ := Bytes.length_trimStart_le s
  rw [hs, List.length_cons] at h₃
  rw [hr] at h₂
  omega

theorem length_items {item : Reader α} {read as : List α} {s rest : Bytes}
    (h : items item read s = .ok (as, rest)) : rest.length < s.length := by
  fun_induction items item read s with
  | case2 read s b tail hs hb =>
    have := Bytes.length_trimStart_le s
    cases h
    rw [hs, List.length_cons] at this
    omega
  | case5 read s b tail hs _ _ c tail' hr _ a tail'' hi ih =>
    have h₁ := item.shrinks hi
    have h₂ := Bytes.length_trimStart_le tail
    have h₃ := Bytes.length_trimStart_le s
    have h₄ := ih h
    rw [hs, List.length_cons] at h₃
    rw [hr] at h₂
    omega
  | _ => cases h

/-- Reads the items of a list whose bracket has been opened. -/
def listBody (item : Reader α) (s : Bytes) : Except Fault (List α × Bytes) :=
  match Bytes.trimStart s with
  | [] => .error ⟨.endInList, []⟩
  | b :: rest =>
    if b == 0x5D then .ok ([], rest)
    else match item.read (b :: rest) with
      | .ok (a, rest') => items item [a] rest'
      | .error fault => .error fault

theorem length_listBody {item : Reader α} {as : List α} {s rest : Bytes}
    (h : listBody item s = .ok (as, rest)) : rest.length < s.length := by
  have hs := Bytes.length_trimStart_le s
  unfold listBody at h
  split at h
  · cases h
  · next hb =>
    rw [hb, List.length_cons] at hs
    split at h
    · cases h
      omega
    · split at h
      · next hi =>
        have := item.shrinks hi
        have := length_items h
        simp only [List.length_cons] at *
        omega
      · cases h

/-- Reads a list, after spaces. -/
def readList (item : Reader α) (s : Bytes) : Except Fault (List α × Bytes) :=
  match Bytes.trimStart s with
  | [] => .error ⟨.endInValue, []⟩
  | b :: rest =>
    if b == 0x5B then listBody item rest else .error (mismatch .sequence (b :: rest))

theorem length_readList {item : Reader α} {as : List α} {s rest : Bytes}
    (h : readList item s = .ok (as, rest)) : rest.length < s.length := by
  have hs := Bytes.length_trimStart_le s
  unfold readList at h
  split at h
  · cases h
  · next hb =>
    rw [hb, List.length_cons] at hs
    split at h
    · have := length_listBody h
      omega
    · cases h

def list (item : Reader α) : Reader (List α) := ⟨readList item, length_readList⟩

/-! ## Objects -/

/-- Reads a key, whose quote has been opened, and its colon. -/
def key (s : Bytes) : Except Fault (String × Bytes) :=
  match Quoted.read s with
  | .error fault => .error fault
  | .ok (name, rest) => match Bytes.trimStart rest with
    | [] => .error ⟨.endInObject, []⟩
    | b :: rest' => if b == 0x3A then .ok (name, rest') else .error ⟨.expectedColon, rest'⟩

theorem length_key {s rest : Bytes} {name : String} (h : key s = .ok (name, rest)) :
    rest.length < s.length := by
  unfold key at h
  split at h
  · cases h
  · next r hq =>
    have h₁ := Quoted.length_lt_of_read hq
    have h₂ := Bytes.length_trimStart_le r
    split at h
    · cases h
    · next hb =>
      rw [hb, List.length_cons] at h₂
      split at h
      · cases h
        omega
      · cases h

/-- Reads a member whose key's quote has been opened. -/
def member (value : Reader α) (s : Bytes) : Except Fault ((String × α) × Bytes) :=
  match key s with
  | .error fault => .error fault
  | .ok (name, rest) => match value.read rest with
    | .ok (a, rest') => .ok ((name, a), rest')
    | .error fault => .error fault

theorem length_member {value : Reader α} {s rest : Bytes} {m : String × α}
    (h : member value s = .ok (m, rest)) : rest.length < s.length := by
  unfold member at h
  split at h
  · cases h
  · next hk =>
    split at h
    · next hv =>
      cases h
      exact Nat.lt_trans (value.shrinks hv) (length_key hk)
    · cases h

set_option linter.unusedVariables false in
/-- Reads on behind a member; the members so far are kept last one first. -/
def members (value : Reader α) (read : List (String × α)) (s : Bytes) :
    Except Fault (List (String × α) × Bytes) :=
  match hs : Bytes.trimStart s with
  | [] => .error ⟨.endInObject, []⟩
  | b :: rest =>
    if b == 0x7D then .ok (read.reverse, rest)
    else if b == 0x2C then
      match hr : Bytes.trimStart rest with
      | [] => .error ⟨.endInValue, []⟩
      | c :: rest' =>
        if c == 0x22 then
          match hm : member value rest' with
          | .ok (m, rest'') => members value (m :: read) rest''
          | .error fault => .error fault
        else if c == 0x7D then .error ⟨.trailingComma, rest'⟩
        else .error ⟨.keyNotString, rest'⟩
    else .error ⟨.expectedCommaInObject, rest⟩
termination_by s.length
decreasing_by
  have h₁ := length_member hm
  have h₂ := Bytes.length_trimStart_le rest
  have h₃ := Bytes.length_trimStart_le s
  rw [hs, List.length_cons] at h₃
  rw [hr, List.length_cons] at h₂
  omega

theorem length_members {value : Reader α} {read ms : List (String × α)} {s rest : Bytes}
    (h : members value read s = .ok (ms, rest)) : rest.length < s.length := by
  fun_induction members value read s with
  | case2 read s b tail hs hb =>
    have := Bytes.length_trimStart_le s
    cases h
    rw [hs, List.length_cons] at this
    omega
  | case4 read s b tail hs _ _ c tail' hr _ m tail'' hm ih =>
    have h₁ := length_member hm
    have h₂ := Bytes.length_trimStart_le tail
    have h₃ := Bytes.length_trimStart_le s
    have h₄ := ih h
    rw [hs, List.length_cons] at h₃
    rw [hr, List.length_cons] at h₂
    omega
  | _ => cases h

/-- Reads the members of an object whose brace has been opened. -/
def objectBody (value : Reader α) (s : Bytes) : Except Fault (List (String × α) × Bytes) :=
  match Bytes.trimStart s with
  | [] => .error ⟨.endInObject, []⟩
  | b :: rest =>
    if b == 0x7D then .ok ([], rest)
    else if b == 0x22 then
      match member value rest with
      | .ok (m, rest') => members value [m] rest'
      | .error fault => .error fault
    else .error ⟨.keyNotString, rest⟩

theorem length_objectBody {value : Reader α} {ms : List (String × α)} {s rest : Bytes}
    (h : objectBody value s = .ok (ms, rest)) : rest.length < s.length := by
  have hs := Bytes.length_trimStart_le s
  unfold objectBody at h
  split at h
  · cases h
  · next hb =>
    rw [hb, List.length_cons] at hs
    split at h
    · cases h
      omega
    · split at h
      · split at h
        · next hm =>
          have := length_member hm
          have := length_members h
          omega
        · cases h
      · cases h

/-- Reads an object, after spaces. -/
def readObject (value : Reader α) (s : Bytes) : Except Fault (List (String × α) × Bytes) :=
  match Bytes.trimStart s with
  | [] => .error ⟨.endInValue, []⟩
  | b :: rest =>
    if b == 0x7B then objectBody value rest else .error (mismatch .map (b :: rest))

theorem length_readObject {value : Reader α} {ms : List (String × α)} {s rest : Bytes}
    (h : readObject value s = .ok (ms, rest)) : rest.length < s.length := by
  have hs := Bytes.length_trimStart_le s
  unfold readObject at h
  split at h
  · cases h
  · next hb =>
    rw [hb, List.length_cons] at hs
    split at h
    · have := length_objectBody h
      omega
    · cases h

def object (value : Reader α) : Reader (List (String × α)) :=
  ⟨readObject value, length_readObject⟩

/-- An object as a table: of several members with one key the last one counts. -/
def table (value : Reader α) : Reader (Table α) where
  read s := ((object value).read s).map fun (ms, rest) => (Table.ofList ms, rest)
  shrinks {s t rest} h := by
    obtain ⟨⟨ms, r⟩, hr, he⟩ := map_eq_ok h
    cases he
    exact (object value).shrinks hr

/-! ## A whole text -/

/-- Only spaces may follow the value. -/
def readAll (reader : Reader α) (s : Bytes) : Except Malformed α :=
  match reader.read s with
  | .error fault => .error (fault.locate s)
  | .ok (a, rest) => match Bytes.trimStart rest with
    | [] => .ok a
    | _ :: rest' => .error (Fault.locate s ⟨.trailingCharacters, rest'⟩)

end Reader

end JsonCabinet.Json
