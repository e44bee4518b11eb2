import JsonCabinet.Json.Numeral
import JsonCabinet.Proofs.Json.Completeness
import JsonCabinet.Proofs.Text.Integer

/-!
# Integers as values

A number that is the plain decimal form of an integer of 64 bits, with a sign or without, is read as
that integer (`read_integer`). Negative zero is left out, as it has a floating-point number for its
value. What an integer is written as is such a form (`isInteger_toString`).
-/

namespace JsonCabinet.Json

open Text (Decimal digitsFrom)

namespace Grammar

/-- The decimal form of an integer that fits into 64 bits, other than negative zero. -/
def IsInteger (s : Bytes) : Prop :=
  s ≠ [0x2D, 0x30] ∧ ∃ n, Decimal s n ∧ Word.leastSigned ≤ n ∧ n ≤ Word.greatest

theorem isInteger_toString {n : Int} (hleast : Word.leastSigned ≤ n)
    (hgreatest : n ≤ Word.greatest) : IsInteger (Bytes.ofString (toString n)) := by
  refine ⟨fun hs => ?_, n, Text.decimal_toString n, hleast, hgreatest⟩
  have hzero : Decimal [0x2D, 0x30] 0 := .minus (allDigits_nil.some (b := 0x30) rfl)
  obtain rfl : n = 0 := (hs ▸ Text.decimal_toString n).unique hzero
  exact absurd hs (by decide)

theorem whole_of_allDigits {s : Bytes} (h : Seq Whole (Seq Fraction Exponent) s)
    (hs : AllDigits s) : Whole s := by
  obtain ⟨w, _, hw, ⟨f, e, hf, he, rfl⟩, rfl⟩ := h
  obtain ⟨-, hrest⟩ := List.forall_mem_append.1 hs
  obtain ⟨hf', he'⟩ := List.forall_mem_append.1 hrest
  cases hf with
  | digits => cases hf' 0x2E List.mem_cons_self
  | none =>
    cases he with
    | none => rwa [List.append_nil, List.append_nil]
    | @digits mark _ hm =>
      have hmark := he' mark List.mem_cons_self
      rcases hm with rfl | rfl <;> cases hmark

theorem isDigit_of_whole {Q : Bytes → Prop} {b : UInt8} {s : Bytes} (h : Seq Whole Q (b :: s)) :
    Bytes.isDigit b = true := by
  obtain ⟨w, t, hw, -, heq⟩ := h
  cases hw with
  | zero => cases heq; rfl
  | digits hb => cases heq; exact hb

/-- A number begins with a minus sign or a digit. -/
theorem exists_cons_of_number {s : Bytes} (hs : Grammar.Number s) :
    ∃ b t, s = b :: t ∧ (b = 0x2D ∨ Bytes.isDigit b = true) := by
  cases hs with
  | negative => exact ⟨_, _, rfl, .inl rfl⟩
  | positive hs =>
    obtain ⟨_, _, hw, _, rfl⟩ := hs
    cases hw with
    | zero => exact ⟨_, _, rfl, .inr rfl⟩
    | digits hb => exact ⟨_, _, rfl, .inr hb⟩

/-- Without fraction and exponent a number is made of digits behind its sign. -/
theorem number_cases {s : Bytes} {n : Int} (hs : Grammar.Number s) (hn : Decimal s n) :
    (Whole s ∧ n = digitsFrom 0 s) ∨
      ∃ ds, s = 0x2D :: ds ∧ Whole ds ∧ n = -(digitsFrom 0 ds : Int) := by
  cases hs with
  | positive hs =>
    cases hn with
    | bare h => exact .inl ⟨whole_of_allDigits hs h.2, rfl⟩
    | plus => cases isDigit_of_whole hs
    | minus => cases isDigit_of_whole hs
  | negative hs =>
    cases hn with
    | bare h => cases h.2 0x2D List.mem_cons_self
    | minus h => exact .inr ⟨_, rfl, whole_of_allDigits hs h.2, rfl⟩

end Grammar

/-! ## Reading digits -/

namespace Numeral

open Grammar Scan

section Digits

variable {ds s : Bytes}

theorem takeDigits_append (hds : AllDigits ds) (hs : EndsNumber s) :
    takeDigits (ds ++ s) = (ds, s) := by
  have hnone : s.takeWhile Bytes.isDigit = [] ∧ s.dropWhile Bytes.isDigit = s := by
    cases s with
    | nil => exact ⟨rfl, rfl⟩
    | cons b s =>
      obtain ⟨hb, -⟩ := hs
      exact ⟨List.takeWhile_cons_of_neg (by simp [hb]), List.dropWhile_cons_of_neg (by simp [hb])⟩
  rw [takeDigits, List.takeWhile_append_of_pos hds, List.dropWhile_append_of_pos hds, hnone.1,
    hnone.2, List.append_nil]

theorem readWhole_append (hds : Whole ds) (hs : EndsNumber s) :
    readWhole (ds ++ s) = .ok (ds, s) := by
  cases hds with
  | zero =>
    cases s with
    | nil => rfl
    | cons b s => simp [readWhole, hs.1]
  | digits hb hne hds => simp [readWhole, hb, hne, takeDigits_append hds hs]

theorem readFraction_of_endsNumber (hs : EndsNumber s) : readFraction s = .ok ([], s) := by
  cases s with
  | nil => rfl
  | cons b s =>
    obtain ⟨-, hpoint, -⟩ := hs
    simp [readFraction, hpoint]

theorem readExponent_of_endsNumber (hs : EndsNumber s) : readExponent s = .ok (none, s) := by
  cases s with
  | nil => rfl
  | cons b s =>
    obtain ⟨-, -, he, he'⟩ := hs
    simp [readExponent, isMark, he, he']

/-- Digits that fit into 64 bits are all taken. -/
theorem accumulate_eq {n : Nat} (h : digitsFrom n ds ≤ Word.greatest) :
    accumulate n ds = (digitsFrom n ds, 0) := by
  induction ds generalizing n with
  | nil => rfl
  | cons b ds ih =>
    rw [Text.digitsFrom_cons] at h ⊢
    have hnext := (Text.le_digitsFrom (n * 10 + Bytes.digitValue b) ds).trans h
    simp only [accumulate, if_pos hnext, ih h]

theorem digitsFrom_pos (hds : Whole ds) (hne : ds ≠ [0x30]) : 0 < digitsFrom 0 ds := by
  cases hds with
  | zero => exact absurd rfl hne
  | @digits b ds hb hzero =>
    have hle : (0x30 : UInt8) ≤ b := of_decide_eq_true (Bool.and_eq_true_iff.1 hb).1
    have hlt : 0x30 < b.toNat := by
      refine Nat.lt_of_le_of_ne (UInt8.le_iff_toNat_le.1 hle) fun heq => hzero ?_
      exact UInt8.toNat_inj.1 heq.symm
    have hfirst : 0 < 0 * 10 + Bytes.digitValue b := by
      rw [Bytes.digitValue]
      omega
    rw [Text.digitsFrom_cons]
    exact hfirst.trans_le (Text.le_digitsFrom _ _)

end Digits

/-! ## Reading an integer -/

/-- An integer is read as it is. -/
theorem read_integer {s rest : Bytes} {n : Int} (hs : Grammar.Number s) (hn : Decimal s n)
    (hzero : s ≠ [0x2D, 0x30]) (hleast : Word.leastSigned ≤ n) (hgreatest : n ≤ Word.greatest)
    (hrest : EndsNumber rest) :
    ∃ a, read (s ++ rest) = .ok (a, rest) ∧ a.value rest = .ok (.integer n) := by
  rcases number_cases hs hn with ⟨hw, rfl⟩ | ⟨ds, rfl, hw, rfl⟩
  · have hsign : isNegative (s ++ rest) = false := by
      cases hw with
      | zero => rfl
      | digits hb => simp [isNegative, isDigit_ne (c := 0x2D) hb rfl]
    have hall : accumulate 0 s = (digitsFrom 0 s, 0) := accumulate_eq (by omega)
    refine ⟨⟨false, s, [], none⟩, ?_, ?_⟩
    · simp [read, hsign, readWhole_append hw hrest, readFraction_of_endsNumber hrest,
        readExponent_of_endsNumber hrest]
    · simp [value, hall]
  · have hne : ds ≠ [0x30] := fun h => hzero (by rw [h])
    have hpos := digitsFrom_pos hw hne
    have hall : accumulate 0 ds = (digitsFrom 0 ds, 0) := by
      refine accumulate_eq ?_
      rw [Word.leastSigned] at hleast
      rw [Word.greatest]
      omega
    refine ⟨⟨true, ds, [], none⟩, ?_, ?_⟩
    · simp [read, isNegative, readWhole_append hw hrest, readFraction_of_endsNumber hrest,
        readExponent_of_endsNumber hrest]
    · simp [value, hall, hpos, hleast]

end Numeral

end JsonCabinet.Json
