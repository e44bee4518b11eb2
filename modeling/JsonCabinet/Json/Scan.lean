import JsonCabinet.Json.Fault

/-!
# Where a JSON value ends

A machine that reads one JSON value byte by byte and stops right behind it. It keeps a control
state and the brackets that are open, so nesting has no limit. Strings are checked for their form
only: an escape may name half of a surrogate pair. Numbers have no range. Main statements: a value
is recognised whatever follows it (`run_cut`), and `cut` splits a text where `run` stops
(`cut_eq`).
-/

namespace JsonCabinet.Json.Scan

inductive Bracket
  | list
  | object
  deriving DecidableEq, Repr

/-- How far a number has been read. -/
inductive Digits
  | minus
  | zero
  | whole
  | point
  | fraction
  | mark
  | sign
  | exponent
  deriving DecidableEq, Repr

/-- A string is a member's key or a value. -/
inductive Role
  | key
  | value
  deriving DecidableEq, Repr

inductive Control
  | value
  | listStart
  | objectStart
  | key
  | colon
  | after
  | string (role : Role)
  | escape (role : Role)
  | hex (role : Role) (left : Nat) (sound : Bool)
  | word (left : Bytes)
  | number (part : Digits)
  deriving DecidableEq, Repr

/-- What one byte does to the machine. -/
inductive Step
  | goOn (control : Control) (stack : List Bracket)
  /-- The value ended with this byte. -/
  | done
  /-- The value ended before this byte. -/
  | doneBefore
  | fault (cause : Cause)
  /-- The fault is placed before this byte. -/
  | faultBefore (cause : Cause)
  deriving DecidableEq, Repr

/-! ## Numbers -/

inductive DigitStep
  | goOn (part : Digits)
  | ended
  | invalid
  deriving DecidableEq, Repr

def Digits.step (part : Digits) (b : UInt8) : DigitStep :=
  match part with
  | .minus => if b == 0x30 then .goOn .zero else if Bytes.isDigit b then .goOn .whole else .invalid
  | .zero =>
    if b == 0x2E then .goOn .point else if b == 0x65 || b == 0x45 then .goOn .mark
    else if Bytes.isDigit b then .invalid else .ended
  | .whole =>
    if b == 0x2E then .goOn .point else if b == 0x65 || b == 0x45 then .goOn .mark
    else if Bytes.isDigit b then .goOn .whole else .ended
  | .point => if Bytes.isDigit b then .goOn .fraction else .invalid
  | .fraction =>
    if b == 0x65 || b == 0x45 then .goOn .mark
    else if Bytes.isDigit b then .goOn .fraction else .ended
  | .mark =>
    if b == 0x2B || b == 0x2D then .goOn .sign
    else if Bytes.isDigit b then .goOn .exponent else .invalid
  | .sign => if Bytes.isDigit b then .goOn .exponent else .invalid
  | .exponent => if Bytes.isDigit b then .goOn .exponent else .ended

/-- A number may end here. -/
def Digits.complete : Digits → Bool
  | .zero | .whole | .fraction | .exponent => true
  | .minus | .point | .mark | .sign => false

/-! ## One byte -/

/-- A value has ended with this byte. -/
def close : List Bracket → Step
  | [] => .done
  | stack => .goOn .after stack

/-- A value begins with this byte. -/
def openValue (stack : List Bracket) (b : UInt8) : Step :=
  if b == 0x22 then .goOn (.string .value) stack
  else if b == 0x7B then .goOn .objectStart (.object :: stack)
  else if b == 0x5B then .goOn .listStart (.list :: stack)
  else if b == 0x2D then .goOn (.number .minus) stack
  else if b == 0x30 then .goOn (.number .zero) stack
  else if Bytes.isDigit b then .goOn (.number .whole) stack
  else if b == 0x6E then .goOn (.word [0x75, 0x6C, 0x6C]) stack
  else if b == 0x74 then .goOn (.word [0x72, 0x75, 0x65]) stack
  else if b == 0x66 then .goOn (.word [0x61, 0x6C, 0x73, 0x65]) stack
  else .fault .expectedValue

/-- A byte behind a value that stands within a bracket. -/
def behind (stack : List Bracket) (b : UInt8) : Step :=
  match stack with
  | [] => .doneBefore
  | .list :: outer =>
    if Bytes.isSpace b then .goOn .after stack
    else if b == 0x2C then .goOn .value stack
    else if b == 0x5D then close outer
    else .fault .expectedCommaInList
  | .object :: outer =>
    if Bytes.isSpace b then .goOn .after stack
    else if b == 0x2C then .goOn .key stack
    else if b == 0x7D then close outer
    else .fault .expectedCommaInObject

/-- The string has ended with this byte. -/
def closeString (stack : List Bracket) : Role → Step
  | .key => .goOn .colon stack
  | .value => close stack

def isSimpleEscape (b : UInt8) : Bool :=
  b == 0x22 || b == 0x5C || b == 0x2F || b == 0x62 || b == 0x66 || b == 0x6E || b == 0x72 ||
    b == 0x74

def step (control : Control) (stack : List Bracket) (b : UInt8) : Step :=
  match control with
  | .value => if Bytes.isSpace b then .goOn .value stack else openValue stack b
  | .listStart =>
    if Bytes.isSpace b then .goOn .listStart stack
    else if b == 0x5D then close stack.tail
    else openValue stack b
  | .objectStart =>
    if Bytes.isSpace b then .goOn .objectStart stack
    else if b == 0x7D then close stack.tail
    else if b == 0x22 then .goOn (.string .key) stack
    else .fault .keyNotString
  | .key =>
    if Bytes.isSpace b then .goOn .key stack
    else if b == 0x22 then .goOn (.string .key) stack
    else .fault .keyNotString
  | .colon =>
    if Bytes.isSpace b then .goOn .colon stack
    else if b == 0x3A then .goOn .value stack
    else .fault .expectedColon
  | .after => behind stack b
  | .string role =>
    if b == 0x22 then closeString stack role
    else if b == 0x5C then .goOn (.escape role) stack
    else if b < 0x20 then .faultBefore .controlCharacter
    else .goOn (.string role) stack
  | .escape role =>
    if isSimpleEscape b then .goOn (.string role) stack
    else if b == 0x75 then .goOn (.hex role 3 true) stack
    else .fault .invalidEscape
  | .hex role left sound =>
    let sound := sound && (Bytes.hexValue? b).isSome
    match left with
    | left + 1 => .goOn (.hex role left sound) stack
    | 0 => if sound then .goOn (.string role) stack else .fault .invalidEscape
  | .word [] => .fault .expectedWord
  | .word [c] => if b == c then close stack else .fault .expectedWord
  | .word (c :: left) => if b == c then .goOn (.word left) stack else .fault .expectedWord
  | .number part =>
    match part.step b with
    | .goOn part => .goOn (.number part) stack
    | .invalid => .fault .invalidNumber
    | .ended => behind stack b

/-! ## The end of the text -/

/-- The text ends here: the value is complete, or something is missing. -/
def finish (control : Control) (stack : List Bracket) : Except Cause Unit :=
  match control with
  | .value => .error .endInValue
  | .listStart => .error .endInList
  | .objectStart | .key | .colon => .error .endInObject
  | .after => inside stack
  | .string _ | .escape _ | .hex .. => .error .endInString
  | .word _ => .error .endInValue
  | .number part => if part.complete then inside stack else .error .invalidNumber
where
  inside : List Bracket → Except Cause Unit
    | [] => .ok ()
    | .list :: _ => .error .endInList
    | .object :: _ => .error .endInObject

/-! ## A run -/

/-- Reads on to the end of the value and gives what follows it. -/
def run (control : Control) (stack : List Bracket) : Bytes → Except Fault Bytes
  | [] => match finish control stack with
    | .ok _ => .ok []
    | .error cause => .error ⟨cause, []⟩
  | b :: rest =>
    match step control stack b with
    | .goOn control stack => run control stack rest
    | .done => .ok rest
    | .doneBefore => .ok (b :: rest)
    | .fault cause => .error ⟨cause, rest⟩
    | .faultBefore cause => .error ⟨cause, b :: rest⟩

/-- Reads on to the end of the value and gives the value itself and what follows it. What was read
before stands last byte first. -/
def cut (control : Control) (stack : List Bracket) (read : Bytes) :
    Bytes → Except Fault (Bytes × Bytes)
  | [] => match finish control stack with
    | .ok _ => .ok (read.reverse, [])
    | .error cause => .error ⟨cause, []⟩
  | b :: rest =>
    match step control stack b with
    | .goOn control stack => cut control stack (b :: read) rest
    | .done => .ok ((b :: read).reverse, rest)
    | .doneBefore => .ok (read.reverse, b :: rest)
    | .fault cause => .error ⟨cause, rest⟩
    | .faultBefore cause => .error ⟨cause, b :: rest⟩

/-! ## A value stands on its own -/

theorem Digits.complete_of_step_ended {part : Digits} {b : UInt8} (h : part.step b = .ended) :
    part.complete = true := by
  cases part <;> simp only [Digits.step] at h <;> (repeat' split at h) <;>
    simp_all [Digits.complete]

theorem close_ne_doneBefore (stack : List Bracket) : close stack ≠ .doneBefore := by
  cases stack <;> simp [close]

theorem finish_of_behind {stack : List Bracket} {b : UInt8} (h : behind stack b = .doneBefore) :
    finish.inside stack = .ok () := by
  rcases stack with _ | ⟨_ | _, outer⟩
  · rfl
  all_goals
    simp only [behind] at h
    repeat' split at h
    all_goals simp [close_ne_doneBefore] at h

theorem openValue_ne_doneBefore (stack : List Bracket) (b : UInt8) :
    openValue stack b ≠ .doneBefore := by
  unfold openValue
  repeat' split
  all_goals simp

/-- A value that ends before a byte would also end where the text does. -/
theorem finish_of_step_doneBefore {control : Control} {stack : List Bracket} {b : UInt8}
    (h : step control stack b = .doneBefore) : finish control stack = .ok () := by
  cases control with
  | after => exact finish_of_behind h
  | number part =>
    simp only [step] at h
    split at h
    · cases h
    · cases h
    · next hp => simp [finish, Digits.complete_of_step_ended hp, finish_of_behind h]
  | string role =>
    cases role <;> simp only [step, closeString] at h <;> (repeat' split at h) <;>
      simp [close_ne_doneBefore] at h
  | word left =>
    rcases left with _ | ⟨c, _ | _⟩ <;> simp only [step] at h <;> (repeat' split at h) <;>
      simp [close_ne_doneBefore] at h
  | _ =>
    simp only [step] at h
    repeat' split at h
    all_goals simp [close_ne_doneBefore, openValue_ne_doneBefore] at h

/-- What a run takes off a text it also takes when nothing follows. -/
theorem run_cut {control : Control} {stack : List Bracket} {s rest : Bytes}
    (h : run control stack s = .ok rest) :
    ∃ p, s = p ++ rest ∧ run control stack p = .ok [] := by
  induction s generalizing control stack with
  | nil =>
    rw [run] at h
    split at h
    · next hf =>
      obtain rfl := Except.ok.inj h
      exact ⟨[], rfl, by rw [run, hf]⟩
    · cases h
  | cons b s ih =>
    rw [run] at h
    split at h
    · next hs =>
      obtain ⟨p, rfl, hp⟩ := ih h
      exact ⟨b :: p, rfl, by rw [run, hs]; exact hp⟩
    · next hs =>
      obtain rfl := Except.ok.inj h
      exact ⟨[b], rfl, by rw [run, hs]⟩
    · next hs =>
      obtain rfl := Except.ok.inj h
      exact ⟨[], rfl, by rw [run, finish_of_step_doneBefore hs]⟩
    · cases h
    · cases h

theorem length_le_of_run {control : Control} {stack : List Bracket} {s rest : Bytes}
    (h : run control stack s = .ok rest) : rest.length ≤ s.length := by
  obtain ⟨p, rfl, _⟩ := run_cut h
  simp

theorem cut_eq (control : Control) (stack : List Bracket) (read s : Bytes) :
    cut control stack read s =
      (run control stack s).map fun rest =>
        (read.reverse ++ s.take (s.length - rest.length), rest) := by
  induction s generalizing control stack read with
  | nil =>
    rw [cut, run]
    cases finish control stack <;> simp [Except.map]
  | cons b s ih =>
    rw [cut, run]
    cases step control stack b with
    | goOn control stack =>
      simp only [ih]
      cases h : run control stack s with
      | error fault => rfl
      | ok rest =>
        have hl : s.length + 1 - rest.length = (s.length - rest.length) + 1 :=
          Nat.succ_sub (length_le_of_run h)
        simp [Except.map, hl]
    | done => simp [Except.map]
    | doneBefore => simp [Except.map]
    | fault cause => rfl
    | faultBefore cause => rfl

theorem length_lt_of_run_value {stack : List Bracket} {s rest : Bytes}
    (h : run .value stack s = .ok rest) : rest.length < s.length := by
  obtain ⟨p, rfl, hp⟩ := run_cut h
  cases p with
  | nil => simp [run, finish] at hp
  | cons b p => simp only [List.length_append, List.length_cons]; omega

theorem run_of_cut {control : Control} {stack : List Bracket} {read s value rest : Bytes}
    (h : cut control stack read s = .ok (value, rest)) : run control stack s = .ok rest := by
  rw [cut_eq] at h
  cases hr : run control stack s with
  | error fault => rw [hr] at h; cases h
  | ok left => rw [hr] at h; cases h; rfl

theorem append_of_cut {control : Control} {stack : List Bracket} {s value rest : Bytes}
    (h : cut control stack [] s = .ok (value, rest)) : s = value ++ rest := by
  have hr := run_of_cut h
  obtain ⟨p, rfl, _⟩ := run_cut hr
  rw [cut_eq, hr] at h
  simpa [Except.map] using h

end JsonCabinet.Json.Scan
