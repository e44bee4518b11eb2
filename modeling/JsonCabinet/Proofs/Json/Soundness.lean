import JsonCabinet.Json.Scan
import JsonCabinet.Proofs.Json.Grammar

/-!
# What the machine accepts

A run of the machine that ends where the text ends has read a value of the grammar, after spaces
(`lang_of_run`). `Lang` says what is still to be read in each state. Before a step this is the byte
of the step and what is to be read after it (`lang_step`), so the induction on the text goes
backwards, from its end.
-/

namespace JsonCabinet.Json.Scan

open Grammar

/-! ## What an open bracket needs -/

def Bracket.opener : Bracket → UInt8
  | .list => 0x5B
  | .object => 0x7B

def Bracket.closer : Bracket → UInt8
  | .list => 0x5D
  | .object => 0x7D

/-- What stands within a bracket that is not empty. -/
def Bracket.inner : Bracket → Symbol
  | .list => .items
  | .object => .members

/-- Items or members up to the end of the bracket. -/
inductive Filled (k : Bracket) : Bytes → Prop
  | mk {s : Bytes} (hs : Derives k.inner s) : Filled k (s ++ [k.closer])

/-- What follows an opened bracket up to its end. -/
inductive Body (k : Bracket) : Bytes → Prop
  | blank {s : Bytes} (hs : Spaces s) : Body k (s ++ [k.closer])
  | filled {s : Bytes} (hs : Filled k s) : Body k s

/-- What follows an item or a member up to the end of the bracket. -/
inductive Rest (k : Bracket) : Bytes → Prop
  | close {a : Bytes} (ha : Spaces a) : Rest k (a ++ [k.closer])
  | more {a s : Bytes} (ha : Spaces a) (hs : Filled k s) : Rest k (a ++ 0x2C :: s)

/-- What follows a key up to the end of its object. -/
inductive PairRest : Bytes → Prop
  | mk {a s : Bytes} (ha : Spaces a) (hs : Seq Spaces (Seq IsValue (Rest .object)) s) :
    PairRest (a ++ 0x3A :: s)

/-- What closes all open brackets, behind a value. -/
def Closes : List Bracket → Bytes → Prop
  | [] => (· = [])
  | k :: outer => Seq (Rest k) (Closes outer)

theorem text_cons {b : UInt8} {s : Bytes} (hb : Bytes.isSpace b = true)
    (h : Derives .text s) : Derives .text (b :: s) := by
  cases h with
  | text ha hv hb' => exact .text (ha.cons hb) hv hb'

theorem Filled.cons {k : Bracket} {b : UInt8} {s : Bytes} (hb : Bytes.isSpace b = true)
    (h : Filled k s) : Filled k (b :: s) := by
  obtain ⟨hs⟩ := h
  refine .mk (s := b :: _) ?_
  cases k with
  | list => cases hs with
    | item ht => exact .item (text_cons hb ht)
    | items ht hs => exact .items (text_cons hb ht) hs
  | object => cases hs with
    | member ha hk hb' ht => exact .member (ha.cons hb) hk hb' ht
    | members ha hk hb' ht hs => exact .members (ha.cons hb) hk hb' ht hs

theorem Body.cons {k : Bracket} {b : UInt8} {s : Bytes} (hb : Bytes.isSpace b = true)
    (h : Body k s) : Body k (b :: s) := by
  cases h with
  | blank hs => exact .blank (hs.cons hb)
  | filled hs => exact .filled (hs.cons hb)

theorem Rest.cons {k : Bracket} {b : UInt8} {s : Bytes} (hb : Bytes.isSpace b = true)
    (h : Rest k s) : Rest k (b :: s) := by
  cases h with
  | close ha => exact .close (ha.cons hb)
  | more ha hs => exact .more (ha.cons hb) hs

theorem PairRest.cons {b : UInt8} {s : Bytes} (hb : Bytes.isSpace b = true) (h : PairRest s) :
    PairRest (b :: s) := by
  obtain ⟨ha, hs⟩ := h
  exact .mk (ha.cons hb) hs

theorem isValue_of_body {k : Bracket} {s : Bytes} (h : Body k s) : IsValue (k.opener :: s) := by
  cases h with
  | blank hs => cases k with
    | list => exact .emptyList hs
    | object => exact .emptyObject hs
  | filled hs => obtain ⟨hs⟩ := hs; cases k with
    | list => exact .list hs
    | object => exact .object hs

/-- A value and what follows it up to the end of its list are items. -/
theorem filled_of_value {s : Bytes} (h : Seq Spaces (Seq IsValue (Rest .list)) s) :
    Filled .list s := by
  obtain ⟨a, _, ha, ⟨v, t, hv, ht, rfl⟩, rfl⟩ := h
  cases ht with
  | close hb =>
    have := Filled.mk (k := .list) (.item (.text ha hv hb))
    simpa using this
  | more hb hs =>
    obtain ⟨hs⟩ := hs
    have := Filled.mk (k := .list) (.items (.text ha hv hb) hs)
    simpa using this

/-- A quoted key and what follows it up to the end of its object are members. -/
theorem filled_of_key {s : Bytes} (h : Seq Inner (Seq (· = [0x22]) PairRest) s) :
    Filled .object (0x22 :: s) := by
  obtain ⟨k, _, hk, ⟨_, _, rfl, ⟨hb, hs⟩, rfl⟩, rfl⟩ := h
  obtain ⟨a, _, ha, ⟨v, t, hv, ht, rfl⟩, rfl⟩ := hs
  cases ht with
  | close hb' =>
    have := Filled.mk (k := .object) (.member spaces_nil hk hb (.text ha hv hb'))
    simpa using this
  | more hb' hs =>
    obtain ⟨hs⟩ := hs
    have := Filled.mk (k := .object) (.members spaces_nil hk hb (.text ha hv hb') hs)
    simpa using this

/-! ## What a number needs -/

def NumberRest : Digits → Bytes → Prop
  | .minus => Seq Whole (Seq Fraction Exponent)
  | .zero => Seq Fraction Exponent
  | .whole => Seq AllDigits (Seq Fraction Exponent)
  | .point => Seq SomeDigits Exponent
  | .fraction => Seq AllDigits Exponent
  | .mark => Seq Sign SomeDigits
  | .sign => SomeDigits
  | .exponent => AllDigits

theorem numberRest_nil {part : Digits} (h : part.complete = true) : NumberRest part [] := by
  cases part with
  | zero => exact Seq.skip Fraction.none Exponent.none
  | whole => exact Seq.skip allDigits_nil (.skip Fraction.none Exponent.none)
  | fraction => exact Seq.skip allDigits_nil Exponent.none
  | exponent => exact allDigits_nil
  | minus | point | mark | sign => cases h

theorem tail_of_point {s : Bytes} (hs : NumberRest .point s) :
    Seq Fraction Exponent (0x2E :: s) :=
  hs.cons fun _ hp => .digits hp

theorem exponent_of_mark {b : UInt8} {s : Bytes} (hb : (b == 0x65 || b == 0x45) = true)
    (hs : NumberRest .mark s) : Exponent (b :: s) :=
  .digits (by simpa using hb) hs

section Numbers

variable {part part' : Digits} {b : UInt8} {s : Bytes}

theorem numberRest_minus (h : Digits.step .minus b = .goOn part') (hs : NumberRest part' s) :
    NumberRest .minus (b :: s) := by
  simp only [Digits.step] at h
  split at h
  · next hb =>
    obtain rfl := beq_iff_eq.1 hb
    cases h
    exact Seq.first Whole.zero hs
  · next hb =>
    split at h
    · next hd =>
      cases h
      exact hs.cons fun p hp => .digits hd (by simpa using hb) hp
    · cases h

theorem numberRest_zero (h : Digits.step .zero b = .goOn part') (hs : NumberRest part' s) :
    NumberRest .zero (b :: s) := by
  simp only [Digits.step] at h
  split at h
  · next hb =>
    obtain rfl := beq_iff_eq.1 hb
    cases h
    exact tail_of_point hs
  · split at h
    · next hb =>
      cases h
      exact Seq.skip Fraction.none (exponent_of_mark hb hs)
    · split at h <;> cases h

theorem numberRest_whole (h : Digits.step .whole b = .goOn part') (hs : NumberRest part' s) :
    NumberRest .whole (b :: s) := by
  simp only [Digits.step] at h
  split at h
  · next hb =>
    obtain rfl := beq_iff_eq.1 hb
    cases h
    exact Seq.skip allDigits_nil (tail_of_point hs)
  · split at h
    · next hb =>
      cases h
      exact Seq.skip allDigits_nil (.skip Fraction.none (exponent_of_mark hb hs))
    · split at h
      · next hd =>
        cases h
        exact hs.cons fun p hp => hp.cons hd
      · cases h

theorem numberRest_point (h : Digits.step .point b = .goOn part') (hs : NumberRest part' s) :
    NumberRest .point (b :: s) := by
  simp only [Digits.step] at h
  split at h
  · next hd =>
    cases h
    exact hs.cons fun p hp => hp.some hd
  · cases h

theorem numberRest_fraction (h : Digits.step .fraction b = .goOn part')
    (hs : NumberRest part' s) : NumberRest .fraction (b :: s) := by
  simp only [Digits.step] at h
  split at h
  · next hb =>
    cases h
    exact Seq.skip allDigits_nil (exponent_of_mark hb hs)
  · split at h
    · next hd =>
      cases h
      exact hs.cons fun p hp => hp.cons hd
    · cases h

theorem numberRest_mark (h : Digits.step .mark b = .goOn part') (hs : NumberRest part' s) :
    NumberRest .mark (b :: s) := by
  simp only [Digits.step] at h
  split at h
  · next hb =>
    cases h
    rcases (by simpa using hb : b = 0x2B ∨ b = 0x2D) with rfl | rfl
    · exact Seq.first Sign.plus hs
    · exact Seq.first Sign.minus hs
  · split at h
    · next hd =>
      cases h
      exact Seq.skip Sign.none (hs.some hd)
    · cases h

theorem numberRest_sign (h : Digits.step .sign b = .goOn part') (hs : NumberRest part' s) :
    NumberRest .sign (b :: s) := by
  simp only [Digits.step] at h
  split at h
  · next hd =>
    cases h
    exact hs.some hd
  · cases h

theorem numberRest_exponent (h : Digits.step .exponent b = .goOn part')
    (hs : NumberRest part' s) : NumberRest .exponent (b :: s) := by
  simp only [Digits.step] at h
  split at h
  · next hd =>
    cases h
    exact hs.cons hd
  · cases h

theorem numberRest_step (h : part.step b = .goOn part') (hs : NumberRest part' s) :
    NumberRest part (b :: s) := by
  cases part with
  | minus => exact numberRest_minus h hs
  | zero => exact numberRest_zero h hs
  | whole => exact numberRest_whole h hs
  | point => exact numberRest_point h hs
  | fraction => exact numberRest_fraction h hs
  | mark => exact numberRest_mark h hs
  | sign => exact numberRest_sign h hs
  | exponent => exact numberRest_exponent h hs

end Numbers

/-! ## What the machine needs -/

def StringRest : Bytes → Prop := Seq Inner (· = [0x22])

def HexDigits (n : Nat) (h : Bytes) : Prop := h.length = n ∧ ∀ b ∈ h, IsHexDigit b

/-- What follows a string, by its role. -/
def Behind : Role → List Bracket → Bytes → Prop
  | .value, stack => Closes stack
  | .key, .object :: outer => Seq PairRest (Closes outer)
  | .key, _ => fun _ => True

/-- What is to be read before all open brackets are closed. States that the machine does not reach
allow everything. -/
def Lang : Control → List Bracket → Bytes → Prop
  | .value, stack => Seq Spaces (Seq IsValue (Closes stack))
  | .listStart, .list :: outer => Seq (Body .list) (Closes outer)
  | .objectStart, .object :: outer => Seq (Body .object) (Closes outer)
  | .key, .object :: outer => Seq (Filled .object) (Closes outer)
  | .colon, .object :: outer => Seq PairRest (Closes outer)
  | .after, stack => Closes stack
  | .string role, stack => Seq StringRest (Behind role stack)
  | .escape role, stack => Seq (Seq Escape StringRest) (Behind role stack)
  | .hex role left true, stack => Seq (Seq (HexDigits (left + 1)) StringRest) (Behind role stack)
  | .hex _ _ false, _ => fun _ => False
  | .word left, stack => Seq (· = left) (Closes stack)
  | .number part, stack => Seq (NumberRest part) (Closes stack)
  | _, _ => fun _ => True

/-- What is to be read after a step. -/
def After : Step → Bytes → Prop
  | .goOn control stack, s => Lang control stack s
  | .done, s => s = []
  | .doneBefore, _ | .fault _, _ | .faultBefore _, _ => False

theorem after_close {stack : List Bracket} {s : Bytes} (h : After (close stack) s) :
    Closes stack s := by
  cases stack with
  | nil => exact h
  | cons k outer => exact h

theorem after_behind_list {outer : List Bracket} {b : UInt8} {s : Bytes}
    (h : After (behind (.list :: outer) b) s) : Seq (Rest .list) (Closes outer) (b :: s) := by
  simp only [behind] at h
  split at h
  · next hb => exact Seq.cons (fun _ hp => hp.cons hb) h
  · split at h
    · next hb =>
      obtain rfl := beq_iff_eq.1 hb
      obtain ⟨p, t, hp, ht, rfl⟩ := Seq.assoc (Seq.mono (fun _ => id) (fun _ => Seq.assoc) h)
      exact .intro (p := 0x2C :: p) (.more spaces_nil (filled_of_value hp)) ht
    · split at h
      · next hb =>
        obtain rfl := beq_iff_eq.1 hb
        exact Seq.first (.close spaces_nil) (after_close h)
      · cases h

theorem after_behind_object {outer : List Bracket} {b : UInt8} {s : Bytes}
    (h : After (behind (.object :: outer) b) s) : Seq (Rest .object) (Closes outer) (b :: s) := by
  simp only [behind] at h
  split at h
  · next hb => exact Seq.cons (fun _ hp => hp.cons hb) h
  · split at h
    · next hb =>
      obtain rfl := beq_iff_eq.1 hb
      exact Seq.cons (fun _ hp => .more spaces_nil hp) h
    · split at h
      · next hb =>
        obtain rfl := beq_iff_eq.1 hb
        exact Seq.first (.close spaces_nil) (after_close h)
      · cases h

theorem after_behind {stack : List Bracket} {b : UInt8} {s : Bytes}
    (h : After (behind stack b) s) : Closes stack (b :: s) := by
  rcases stack with _ | ⟨_ | _, outer⟩
  · cases h
  · exact after_behind_list h
  · exact after_behind_object h

theorem after_openValue {stack : List Bracket} {b : UInt8} {s : Bytes}
    (h : After (openValue stack b) s) : Seq IsValue (Closes stack) (b :: s) := by
  unfold openValue at h
  split at h
  · next hb =>
    obtain rfl := beq_iff_eq.1 hb
    refine Seq.cons ?_ h
    rintro _ ⟨p, _, hp, rfl, rfl⟩
    exact .string hp
  split at h
  · next hb =>
    obtain rfl := beq_iff_eq.1 hb
    exact Seq.cons (fun _ hp => isValue_of_body (k := .object) hp) h
  split at h
  · next hb =>
    obtain rfl := beq_iff_eq.1 hb
    exact Seq.cons (fun _ hp => isValue_of_body (k := .list) hp) h
  split at h
  · next hb =>
    obtain rfl := beq_iff_eq.1 hb
    exact Seq.cons (fun _ hp => .number (.negative hp)) h
  split at h
  · next hb =>
    obtain rfl := beq_iff_eq.1 hb
    exact Seq.cons (fun _ hp => .number (.positive (Seq.first .zero hp))) h
  split at h
  · next hb hd =>
    refine Seq.cons (fun _ hp => .number (.positive ?_)) h
    exact hp.cons fun _ hp => .digits hd (by simpa using hb) hp
  split at h
  · next hb =>
    obtain rfl := beq_iff_eq.1 hb
    exact Seq.cons (by rintro _ rfl; exact .null) h
  split at h
  · next hb =>
    obtain rfl := beq_iff_eq.1 hb
    exact Seq.cons (by rintro _ rfl; exact .true) h
  split at h
  · next hb =>
    obtain rfl := beq_iff_eq.1 hb
    exact Seq.cons (by rintro _ rfl; exact .false) h
  · cases h

theorem after_closeString {role : Role} {stack : List Bracket} {s : Bytes}
    (h : After (closeString stack role) s) : Behind role stack s := by
  cases role with
  | value => exact after_close h
  | key => rcases stack with _ | ⟨_ | _, outer⟩ <;> trivial

theorem isHexDigit_of_hexValue? {b : UInt8} (h : (Bytes.hexValue? b).isSome = true) :
    IsHexDigit b := by
  unfold Bytes.hexValue? at h
  split at h
  · next hd => exact .inl hd
  · split at h
    · next hb => exact .inr (.inl (by simpa using hb))
    · split at h
      · next hb => exact .inr (.inr (by simpa using hb))
      · cases h

theorem hexDigits_nil : HexDigits 0 [] := ⟨rfl, fun _ h => nomatch h⟩

theorem HexDigits.cons {n : Nat} {b : UInt8} {h : Bytes} (hb : IsHexDigit b)
    (hh : HexDigits n h) : HexDigits (n + 1) (b :: h) :=
  ⟨congrArg (· + 1) hh.1, List.forall_mem_cons.2 ⟨hb, hh.2⟩⟩

theorem stringRest_of_escape {s : Bytes} (h : Seq Escape StringRest s) :
    StringRest (0x5C :: s) := by
  obtain ⟨e, _, he, ⟨p, _, hp, rfl, rfl⟩, rfl⟩ := h
  exact ⟨0x5C :: (e ++ p), [0x22], .escape he hp, rfl, by simp⟩

theorem filled_of_string {Q : Bytes → Prop} {s : Bytes} (h : Seq StringRest (Seq PairRest Q) s) :
    Seq (Filled .object) Q (0x22 :: s) := by
  obtain ⟨_, _, ⟨k, _, hk, rfl, rfl⟩, ⟨p, t, hp, ht, rfl⟩, rfl⟩ := h
  have hf : Filled .object (0x22 :: (k ++ ([0x22] ++ p))) :=
    filled_of_key (.intro hk (.intro rfl hp))
  exact ⟨_, t, hf, ht, by simp⟩

/-! ### One byte in each state -/

section Steps

variable {control : Control} {stack outer : List Bracket} {role : Role} {b : UInt8} {s : Bytes}

theorem lang_value (h : After (step .value stack b) s) : Lang .value stack (b :: s) := by
  simp only [step] at h
  split at h
  · next hb => exact Seq.cons (fun _ hp => hp.cons hb) h
  · exact Seq.skip spaces_nil (after_openValue h)

theorem lang_listStart (h : After (step .listStart (.list :: outer) b) s) :
    Lang .listStart (.list :: outer) (b :: s) := by
  simp only [step] at h
  split at h
  · next hb => exact Seq.cons (fun _ hp => hp.cons hb) h
  · split at h
    · next hb =>
      obtain rfl := beq_iff_eq.1 hb
      exact Seq.first (.blank spaces_nil) (after_close h)
    · obtain ⟨p, t, hp, ht, he⟩ := Seq.assoc (after_openValue h)
      rw [he]
      exact .intro (.filled (filled_of_value (.skip spaces_nil hp))) ht

theorem lang_objectStart (h : After (step .objectStart (.object :: outer) b) s) :
    Lang .objectStart (.object :: outer) (b :: s) := by
  simp only [step] at h
  split at h
  · next hb => exact Seq.cons (fun _ hp => hp.cons hb) h
  · split at h
    · next hb =>
      obtain rfl := beq_iff_eq.1 hb
      exact Seq.first (.blank spaces_nil) (after_close h)
    · split at h
      · next hb =>
        obtain rfl := beq_iff_eq.1 hb
        exact Seq.mono (fun _ => .filled) (fun _ => id) (filled_of_string h)
      · cases h

theorem lang_key (h : After (step .key (.object :: outer) b) s) :
    Lang .key (.object :: outer) (b :: s) := by
  simp only [step] at h
  split at h
  · next hb => exact Seq.cons (fun _ hp => hp.cons hb) h
  · split at h
    · next hb =>
      obtain rfl := beq_iff_eq.1 hb
      exact filled_of_string h
    · cases h

theorem lang_colon (h : After (step .colon (.object :: outer) b) s) :
    Lang .colon (.object :: outer) (b :: s) := by
  simp only [step] at h
  split at h
  · next hb => exact Seq.cons (fun _ hp => hp.cons hb) h
  · split at h
    · next hb =>
      obtain rfl := beq_iff_eq.1 hb
      obtain ⟨p, t, hp, ht, rfl⟩ := Seq.assoc (Seq.mono (fun _ => id) (fun _ => Seq.assoc) h)
      exact .intro (p := 0x3A :: p) (.mk spaces_nil hp) ht
    · cases h

theorem lang_string (h : After (step (.string role) stack b) s) :
    Lang (.string role) stack (b :: s) := by
  simp only [step] at h
  split at h
  · next hb =>
    obtain rfl := beq_iff_eq.1 hb
    exact Seq.first (Seq.skip .nil rfl) (after_closeString h)
  · split at h
    · next hb =>
      obtain rfl := beq_iff_eq.1 hb
      exact Seq.cons (fun _ => stringRest_of_escape) h
    · split at h
      · cases h
      · next hq hb hc =>
        refine Seq.cons (fun _ hp => Seq.cons (fun _ hp => ?_) hp) h
        exact .plain (by simpa using hc) (by simpa using hq) (by simpa using hb) hp

theorem lang_escape (h : After (step (.escape role) stack b) s) :
    Lang (.escape role) stack (b :: s) := by
  simp only [step] at h
  split at h
  · next hb =>
    have he : Escape [b] := .simple (by simpa [isSimpleEscape, or_assoc] using hb)
    exact Seq.cons (fun _ hp => .first he hp) h
  · split at h
    · next hb =>
      obtain rfl := beq_iff_eq.1 hb
      exact Seq.cons (fun _ hp => hp.cons fun _ hh => .code hh.1 hh.2) h
    · cases h

theorem lang_hex {left : Nat} {sound : Bool} (h : After (step (.hex role left sound) stack b) s) :
    Lang (.hex role left sound) stack (b :: s) := by
  simp only [step] at h
  cases hs : sound && (Bytes.hexValue? b).isSome with
  | false =>
    rw [hs] at h
    cases left <;> exact h.elim
  | true =>
    rw [hs] at h
    obtain ⟨rfl, hv⟩ := Bool.and_eq_true_iff.1 hs
    have hb : IsHexDigit b := isHexDigit_of_hexValue? hv
    cases left with
    | zero =>
      have h₁ : HexDigits 1 [b] := HexDigits.cons hb hexDigits_nil
      exact Seq.cons (fun _ hp => .first h₁ hp) h
    | succ left => exact Seq.cons (fun _ hp => hp.cons fun _ hh => hh.cons hb) h

theorem lang_word {left : Bytes} (h : After (step (.word left) stack b) s) :
    Lang (.word left) stack (b :: s) := by
  rcases left with _ | ⟨c, _ | ⟨c', left⟩⟩
  · cases h
  · simp only [step] at h
    split at h
    · next hb =>
      obtain rfl := beq_iff_eq.1 hb
      exact Seq.first rfl (after_close h)
    · cases h
  · simp only [step] at h
    split at h
    · next hb =>
      obtain rfl := beq_iff_eq.1 hb
      exact Seq.cons (fun _ hp => congrArg (b :: ·) hp) h
    · cases h

theorem lang_number {part : Digits} (h : After (step (.number part) stack b) s) :
    Lang (.number part) stack (b :: s) := by
  simp only [step] at h
  split at h
  · next hp => exact Seq.cons (fun _ hn => numberRest_step hp hn) h
  · cases h
  · next hp => exact Seq.skip (numberRest_nil (Digits.complete_of_step_ended hp)) (after_behind h)

/-- Before a step, what is needed is the byte of the step and what is needed after it. -/
theorem lang_step (h : After (step control stack b) s) : Lang control stack (b :: s) := by
  -- Of the states within a bracket only those are reached whose bracket is the innermost one.
  cases control with
  | value => exact lang_value h
  | listStart =>
    rcases stack with _ | ⟨_ | _, outer⟩
    · trivial
    · exact lang_listStart h
    · trivial
  | objectStart =>
    rcases stack with _ | ⟨_ | _, outer⟩
    · trivial
    · trivial
    · exact lang_objectStart h
  | key =>
    rcases stack with _ | ⟨_ | _, outer⟩
    · trivial
    · trivial
    · exact lang_key h
  | colon =>
    rcases stack with _ | ⟨_ | _, outer⟩
    · trivial
    · trivial
    · exact lang_colon h
  | after => exact after_behind h
  | string role => exact lang_string h
  | escape role => exact lang_escape h
  | hex role left sound => exact lang_hex h
  | word left => exact lang_word h
  | number part => exact lang_number h

end Steps

/-! ### A run -/

theorem lang_nil {control : Control} {stack : List Bracket}
    (h : finish control stack = .ok ()) : Lang control stack [] := by
  have hin (h : finish.inside stack = .ok ()) : Closes stack [] := by
    rcases stack with _ | ⟨_ | _, outer⟩ <;> first | rfl | cases h
  cases control with
  | after => exact hin h
  | number part =>
    simp only [finish] at h
    split at h
    · next hp => exact Seq.skip (numberRest_nil hp) (hin h)
    · cases h
  | _ => cases h

/-- A run to the end of a text has read what was needed. -/
theorem lang_of_run {control : Control} {stack : List Bracket} {s : Bytes}
    (h : run control stack s = .ok []) : Lang control stack s := by
  induction s generalizing control stack with
  | nil =>
    rw [run] at h
    cases hf : finish control stack with
    | ok u => exact lang_nil hf
    | error cause => rw [hf] at h; cases h
  | cons b s ih =>
    rw [run] at h
    apply lang_step
    cases hs : step control stack b with
    | goOn control' stack' => rw [hs] at h; exact ih h
    | done => rw [hs] at h; exact Except.ok.inj h
    | doneBefore => rw [hs] at h; cases h
    | fault cause => rw [hs] at h; cases h
    | faultBefore cause => rw [hs] at h; cases h

end JsonCabinet.Json.Scan
