import Mathlib
import JsonCabinet.Bytes

/-!
# The grammar of JSON

Which texts are JSON, said by rules that know no reader. A text is one value with spaces around it;
a value is a word, a number, a string, a list of texts or an object of members. Nothing limits how
deep values nest, how long numbers are, or which code units an escape names. The rules are about
bytes: between quotes, every byte from the blank on stands for itself but the quote and the
backslash, so characters beyond ASCII do.
-/

namespace JsonCabinet.Json.Grammar

/-- A part of the one kind and then a part of the other. -/
def Seq (P Q : Bytes → Prop) (s : Bytes) : Prop := ∃ p t, P p ∧ Q t ∧ s = p ++ t

def Spaces (s : Bytes) : Prop := ∀ b ∈ s, Bytes.isSpace b = true

/-! ## Numbers -/

def AllDigits (s : Bytes) : Prop := ∀ b ∈ s, Bytes.isDigit b = true

def SomeDigits (s : Bytes) : Prop := s ≠ [] ∧ AllDigits s

/-- Zero stands in front of no other digit. -/
inductive Whole : Bytes → Prop
  | zero : Whole [0x30]
  | digits {b : UInt8} {s : Bytes} (hb : Bytes.isDigit b = true) (hne : b ≠ 0x30)
    (hs : AllDigits s) : Whole (b :: s)

inductive Fraction : Bytes → Prop
  | none : Fraction []
  | digits {s : Bytes} (hs : SomeDigits s) : Fraction (0x2E :: s)

inductive Sign : Bytes → Prop
  | none : Sign []
  | plus : Sign [0x2B]
  | minus : Sign [0x2D]

inductive Exponent : Bytes → Prop
  | none : Exponent []
  | digits {mark : UInt8} {s : Bytes} (hm : mark = 0x65 ∨ mark = 0x45)
    (hs : Seq Sign SomeDigits s) : Exponent (mark :: s)

inductive Number : Bytes → Prop
  | positive {s : Bytes} (hs : Seq Whole (Seq Fraction Exponent) s) : Number s
  | negative {s : Bytes} (hs : Seq Whole (Seq Fraction Exponent) s) : Number (0x2D :: s)

/-! ## Strings -/

def IsHexDigit (b : UInt8) : Prop :=
  Bytes.isDigit b = true ∨ 0x61 ≤ b ∧ b ≤ 0x66 ∨ 0x41 ≤ b ∧ b ≤ 0x46

/-- What may follow a backslash. -/
inductive Escape : Bytes → Prop
  | simple {b : UInt8} (hb : b ∈ [0x22, 0x5C, 0x2F, 0x62, 0x66, 0x6E, 0x72, 0x74]) : Escape [b]
  | code {h : Bytes} (hl : h.length = 4) (hh : ∀ b ∈ h, IsHexDigit b) : Escape (0x75 :: h)

/-- What may stand between quotes. -/
inductive Inner : Bytes → Prop
  | nil : Inner []
  | plain {b : UInt8} {s : Bytes} (hc : 0x20 ≤ b) (hq : b ≠ 0x22) (hb : b ≠ 0x5C)
    (hs : Inner s) : Inner (b :: s)
  | escape {e s : Bytes} (he : Escape e) (hs : Inner s) : Inner (0x5C :: (e ++ s))

/-! ## Values -/

inductive Symbol
  | value
  /-- A value with spaces around it. -/
  | text
  /-- What stands between the brackets of a list that is not empty. -/
  | items
  /-- What stands between the braces of an object that is not empty. -/
  | members
  deriving DecidableEq, Repr

inductive Derives : Symbol → Bytes → Prop
  | null : Derives .value [0x6E, 0x75, 0x6C, 0x6C]
  | true : Derives .value [0x74, 0x72, 0x75, 0x65]
  | false : Derives .value [0x66, 0x61, 0x6C, 0x73, 0x65]
  | number {s : Bytes} (hs : Number s) : Derives .value s
  | string {s : Bytes} (hs : Inner s) : Derives .value (0x22 :: (s ++ [0x22]))
  | emptyList {s : Bytes} (hs : Spaces s) : Derives .value (0x5B :: (s ++ [0x5D]))
  | list {s : Bytes} (hs : Derives .items s) : Derives .value (0x5B :: (s ++ [0x5D]))
  | emptyObject {s : Bytes} (hs : Spaces s) : Derives .value (0x7B :: (s ++ [0x7D]))
  | object {s : Bytes} (hs : Derives .members s) : Derives .value (0x7B :: (s ++ [0x7D]))
  | text {a v b : Bytes} (ha : Spaces a) (hv : Derives .value v) (hb : Spaces b) :
    Derives .text (a ++ (v ++ b))
  | item {t : Bytes} (ht : Derives .text t) : Derives .items t
  | items {t s : Bytes} (ht : Derives .text t) (hs : Derives .items s) :
    Derives .items (t ++ 0x2C :: s)
  | member {a k b t : Bytes} (ha : Spaces a) (hk : Inner k) (hb : Spaces b)
    (ht : Derives .text t) : Derives .members (a ++ 0x22 :: (k ++ 0x22 :: (b ++ 0x3A :: t)))
  | members {a k b t s : Bytes} (ha : Spaces a) (hk : Inner k) (hb : Spaces b)
    (ht : Derives .text t) (hs : Derives .members s) :
    Derives .members (a ++ 0x22 :: (k ++ 0x22 :: (b ++ 0x3A :: (t ++ 0x2C :: s))))

abbrev IsValue : Bytes → Prop := Derives .value

/-! ## Parts put together -/

theorem Seq.intro {P Q : Bytes → Prop} {p t : Bytes} (hp : P p) (ht : Q t) : Seq P Q (p ++ t) :=
  ⟨p, t, hp, ht, rfl⟩

theorem Seq.skip {P Q : Bytes → Prop} {s : Bytes} (hP : P []) (hQ : Q s) : Seq P Q s :=
  ⟨[], s, hP, hQ, rfl⟩

theorem Seq.first {P Q : Bytes → Prop} {b : UInt8} {s : Bytes} (hP : P [b]) (hQ : Q s) :
    Seq P Q (b :: s) :=
  ⟨[b], s, hP, hQ, rfl⟩

/-- One more byte in front of the first part. -/
theorem Seq.cons {P P' Q : Bytes → Prop} {b : UInt8} {s : Bytes}
    (hP : ∀ p, P p → P' (b :: p)) (h : Seq P Q s) : Seq P' Q (b :: s) := by
  obtain ⟨p, t, hp, ht, rfl⟩ := h
  exact ⟨b :: p, t, hP p hp, ht, rfl⟩

theorem Seq.assoc {P Q R : Bytes → Prop} {s : Bytes} (h : Seq P (Seq Q R) s) :
    Seq (Seq P Q) R s := by
  obtain ⟨p, _, hp, ⟨q, t, hq, ht, rfl⟩, rfl⟩ := h
  exact ⟨p ++ q, t, .intro hp hq, ht, by simp⟩

theorem Seq.mono {P P' Q Q' : Bytes → Prop} {s : Bytes} (hP : ∀ p, P p → P' p)
    (hQ : ∀ t, Q t → Q' t) (h : Seq P Q s) : Seq P' Q' s := by
  obtain ⟨p, t, hp, ht, rfl⟩ := h
  exact ⟨p, t, hP p hp, hQ t ht, rfl⟩

theorem spaces_nil : Spaces [] := fun _ h => nomatch h

theorem Spaces.cons {b : UInt8} {s : Bytes} (hb : Bytes.isSpace b = true) (hs : Spaces s) :
    Spaces (b :: s) :=
  List.forall_mem_cons.2 ⟨hb, hs⟩

theorem allDigits_nil : AllDigits [] := fun _ h => nomatch h

theorem AllDigits.cons {b : UInt8} {s : Bytes} (hb : Bytes.isDigit b = true) (hs : AllDigits s) :
    AllDigits (b :: s) :=
  List.forall_mem_cons.2 ⟨hb, hs⟩

theorem AllDigits.some {b : UInt8} {s : Bytes} (hb : Bytes.isDigit b = true) (hs : AllDigits s) :
    SomeDigits (b :: s) :=
  ⟨List.cons_ne_nil b s, hs.cons hb⟩

theorem Whole.someDigits {s : Bytes} (h : Whole s) : SomeDigits s := by
  cases h with
  | zero => exact allDigits_nil.some rfl
  | digits hb _ hs => exact hs.some hb

/-! ## Spaces in front -/

theorem trimStart_append {a s : Bytes} (ha : Spaces a) :
    Bytes.trimStart (a ++ s) = Bytes.trimStart s :=
  List.dropWhile_append_of_pos ha

theorem trimStart_cons {b : UInt8} {s : Bytes} (hb : Bytes.isSpace b = false) :
    Bytes.trimStart (b :: s) = b :: s :=
  List.dropWhile_cons_of_neg (by simp [hb])

theorem trimStart_of_spaces {a : Bytes} (ha : Spaces a) : Bytes.trimStart a = [] := by
  rw [← List.append_nil a, trimStart_append ha]
  rfl

theorem exists_spaces_append (s : Bytes) : ∃ a, Spaces a ∧ s = a ++ Bytes.trimStart s :=
  ⟨s.takeWhile Bytes.isSpace, List.all_eq_true.1 List.all_takeWhile,
    List.takeWhile_append_dropWhile.symm⟩

theorem spaces_of_trimStart {s : Bytes} (h : Bytes.trimStart s = []) : Spaces s := by
  obtain ⟨a, ha, hs⟩ := exists_spaces_append s
  rw [h, List.append_nil] at hs
  exact hs ▸ ha

/-! ## Spaces behind -/

/-- The last byte is no space. -/
def Closed (s : Bytes) : Prop := ∃ w b, s = w ++ [b] ∧ Bytes.isSpace b = false

theorem Closed.append {t : Bytes} (h : Closed t) (s : Bytes) : Closed (s ++ t) := by
  obtain ⟨w, b, rfl, hb⟩ := h
  exact ⟨s ++ w, b, by simp, hb⟩

theorem closed_concat (s : Bytes) {b : UInt8} (hb : Bytes.isSpace b = false) : Closed (s ++ [b]) :=
  ⟨s, b, rfl, hb⟩

theorem closed_of_append {s t : Bytes} (hs : Closed s) (ht : t = [] ∨ Closed t) :
    Closed (s ++ t) := by
  rcases ht with rfl | ht
  · rwa [List.append_nil]
  · exact ht.append s

theorem isDigit_ne {b c : UInt8} (h : Bytes.isDigit b = true) (hc : Bytes.isDigit c = false) :
    b ≠ c := by
  rintro rfl
  rw [h] at hc
  cases hc

theorem isSpace_of_isDigit {b : UInt8} (hb : Bytes.isDigit b = true) :
    Bytes.isSpace b = false := by
  simp [Bytes.isSpace, isDigit_ne (c := 0x20) hb rfl, isDigit_ne (c := 0x09) hb rfl,
    isDigit_ne (c := 0x0A) hb rfl, isDigit_ne (c := 0x0D) hb rfl]

theorem SomeDigits.closed {s : Bytes} (h : SomeDigits s) : Closed s := by
  obtain ⟨hne, hall⟩ := h
  obtain rfl | ⟨w, b, rfl⟩ := List.eq_nil_or_concat s
  · exact absurd rfl hne
  · rw [List.concat_eq_append] at hall ⊢
    exact closed_concat w (isSpace_of_isDigit (hall b (by simp)))

theorem Number.closed {s : Bytes} (h : Number s) : Closed s := by
  have hexponent {e : Bytes} (he : Exponent e) : e = [] ∨ Closed e := by
    cases he with
    | none => exact .inl rfl
    | digits _ hs =>
      obtain ⟨sign, digits, -, hd, rfl⟩ := hs
      exact .inr ((hd.closed.append sign).append [_])
  have hfraction {f : Bytes} (hf : Fraction f) : f = [] ∨ Closed f := by
    cases hf with
    | none => exact .inl rfl
    | digits hs => exact .inr (hs.closed.append [_])
  have hall {s : Bytes} (hs : Seq Whole (Seq Fraction Exponent) s) : Closed s := by
    obtain ⟨w, _, hw, ⟨f, e, hf, he, rfl⟩, rfl⟩ := hs
    rw [← List.append_assoc]
    exact closed_of_append (closed_of_append hw.someDigits.closed (hfraction hf)) (hexponent he)
  cases h with
  | positive hs => exact hall hs
  | negative hs => exact (hall hs).append [_]

/-- The last byte of a value is no space. -/
theorem closed_of_isValue {v : Bytes} (h : IsValue v) : Closed v := by
  cases h with
  | null => exact closed_concat [0x6E, 0x75, 0x6C] (by decide)
  | true => exact closed_concat [0x74, 0x72, 0x75] (by decide)
  | false => exact closed_concat [0x66, 0x61, 0x6C, 0x73] (by decide)
  | number hs => exact hs.closed
  | string | emptyList | list | emptyObject | object =>
    exact closed_concat (_ :: _) (by decide)

end JsonCabinet.Json.Grammar
