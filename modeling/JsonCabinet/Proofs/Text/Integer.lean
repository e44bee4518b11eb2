import JsonCabinet.Proofs.Json.Grammar
import JsonCabinet.Proofs.Text.Utf8
import JsonCabinet.Text.Integer

/-!
# Integers in texts

A text is read as an integer if it is the decimal form of one, with a sign or without, and the
integer fits into 64 bits (`readInteger_eq_ok_iff`). The form that an integer is written in is a
number of JSON, as it begins with no needless zero (`number_toString`).
-/

namespace JsonCabinet.Text

open Json Grammar

/-! ## Reading -/

/-- The number that the digits go on to from this one. -/
def digitsFrom (n : Nat) (ds : Bytes) : Nat :=
  ds.foldl (fun n b => n * 10 + Bytes.digitValue b) n

/-- The text is a decimal form of the integer. -/
inductive Decimal : Bytes → Int → Prop
  | bare {ds : Bytes} (h : SomeDigits ds) : Decimal ds (digitsFrom 0 ds)
  | plus {ds : Bytes} (h : SomeDigits ds) : Decimal (0x2B :: ds) (digitsFrom 0 ds)
  | minus {ds : Bytes} (h : SomeDigits ds) : Decimal (0x2D :: ds) (-(digitsFrom 0 ds : Int))

theorem digitsFrom_cons (n : Nat) (b : UInt8) (ds : Bytes) :
    digitsFrom n (b :: ds) = digitsFrom (n * 10 + Bytes.digitValue b) ds := by
  simp only [digitsFrom, List.foldl_cons]

theorem digitsFrom_concat (n : Nat) (ds : Bytes) (b : UInt8) :
    digitsFrom n (ds ++ [b]) = digitsFrom n ds * 10 + Bytes.digitValue b := by
  simp only [digitsFrom, List.foldl_append, List.foldl_cons, List.foldl_nil]

theorem le_digitsFrom (n : Nat) (ds : Bytes) : n ≤ digitsFrom n ds := by
  induction ds generalizing n with
  | nil => simp only [digitsFrom, List.foldl_nil, Nat.le_refl]
  | cons b ds ih =>
    have hgrow := ih (n * 10 + Bytes.digitValue b)
    rw [digitsFrom_cons]
    omega

/-- The integer fits into 64 bits. -/
def IsWord (m : Int) : Prop := Word.leastSigned ≤ m ∧ m ≤ Word.greatestSigned

instance (m : Int) : Decidable (IsWord m) := inferInstanceAs (Decidable (_ ∧ _))

theorem isWord_natCast {n : Nat} : IsWord n ↔ ¬Word.greatestSigned < n := by
  unfold IsWord Word.leastSigned
  omega

theorem isWord_neg_natCast {n : Nat} : IsWord (-n) ↔ ¬-(n : Int) < Word.leastSigned := by
  unfold IsWord Word.greatestSigned
  omega

/-- What takes digits onto numbers of one sign, as long as the number that they give fits. -/
structure TakesDigits (sign : Int) (take : Int → Bytes → Except BadInteger Int) : Prop where
  sign_eq : sign = 1 ∨ sign = -1
  nil (n : Int) : take n [] = .ok n
  cons (n : Nat) (b : UInt8) (ds : Bytes) : ∃ e, take (sign * n) (b :: ds) =
    if Bytes.isDigit b = true ∧ IsWord (sign * ↑(n * 10 + Bytes.digitValue b)) then
      take (sign * ↑(n * 10 + Bytes.digitValue b)) ds
    else .error e

namespace TakesDigits

variable {sign : Int} {take : Int → Bytes → Except BadInteger Int} {n n' : Nat} {ds : Bytes}
  {m : Int}

theorem isWord_mono (h : TakesDigits sign take) (hle : n ≤ n') (hword : IsWord (sign * n')) :
    IsWord (sign * n) := by
  unfold IsWord Word.leastSigned Word.greatestSigned at *
  rcases h.sign_eq with rfl | rfl
  · omega
  · omega

theorem eq_ok_iff (h : TakesDigits sign take) (hn : IsWord (sign * n)) :
    take (sign * n) ds = .ok m ↔ AllDigits ds ∧ m = sign * digitsFrom n ds ∧ IsWord m := by
  induction ds generalizing n with
  | nil =>
    rw [h.nil, Except.ok.injEq]
    constructor
    · rintro rfl
      exact ⟨allDigits_nil, rfl, hn⟩
    · rintro ⟨-, rfl, -⟩
      rfl
  | cons b ds ih =>
    obtain ⟨e, he⟩ := h.cons n b ds
    rw [he, AllDigits, List.forall_mem_cons, digitsFrom_cons]
    split
    · next hb =>
      rw [ih hb.2, and_iff_right hb.1]
      rfl
    · next hb =>
      refine iff_of_false nofun ?_
      rintro ⟨⟨hdigit, -⟩, rfl, hword⟩
      exact hb ⟨hdigit, h.isWord_mono (le_digitsFrom _ ds) hword⟩

/-- From zero on, just the digits of a number that fits are taken. -/
theorem zero_eq_ok_iff (h : TakesDigits sign take) (hds : ds ≠ []) :
    take 0 ds = .ok m ↔ SomeDigits ds ∧ m = sign * digitsFrom 0 ds ∧ IsWord m := by
  have hzero : IsWord (sign * (0 : Nat)) := by
    rw [Nat.cast_zero, Int.mul_zero]
    decide
  have htake : take (sign * (0 : Nat)) ds = .ok m ↔ _ := h.eq_ok_iff hzero
  rw [Nat.cast_zero, Int.mul_zero] at htake
  rw [htake, SomeDigits, and_iff_right hds]

end TakesDigits

theorem takesDigits_takeUp : TakesDigits 1 takeUp where
  sign_eq := .inl rfl
  nil n := by rw [takeUp]
  cons n b ds := by
    have hnext : (n : Int) * 10 + Bytes.digitValue b = ↑(n * 10 + Bytes.digitValue b) := by
      push_cast
      rfl
    rw [Int.one_mul, Int.one_mul, takeUp, hnext]
    by_cases hb : Bytes.isDigit b = true
    · refine ⟨.tooLarge, ?_⟩
      simp only [hb, isWord_natCast, Bool.not_true, Bool.false_eq_true, if_false, true_and, ite_not]
    · exact ⟨.invalidDigit, by simp [hb]⟩

theorem takesDigits_takeDown : TakesDigits (-1) takeDown where
  sign_eq := .inr rfl
  nil n := by rw [takeDown]
  cons n b ds := by
    have hnext : -(n : Int) * 10 - Bytes.digitValue b =
        -((n * 10 + Bytes.digitValue b : Nat) : Int) := by
      push_cast
      ring
    rw [Int.neg_one_mul, Int.neg_one_mul, takeDown, hnext]
    by_cases hb : Bytes.isDigit b = true
    · refine ⟨.tooSmall, ?_⟩
      simp only [hb, isWord_neg_natCast, Bool.not_true, Bool.false_eq_true, if_false, true_and, ite_not]
    · exact ⟨.invalidDigit, by simp [hb]⟩

theorem decimal_cons_iff {b : UInt8} {ds : Bytes} {m : Int} : Decimal (b :: ds) m ↔
    (b = 0x2B ∧ SomeDigits ds ∧ m = digitsFrom 0 ds) ∨
    (b = 0x2D ∧ SomeDigits ds ∧ m = -(digitsFrom 0 ds : Int)) ∨
    (SomeDigits (b :: ds) ∧ m = digitsFrom 0 (b :: ds)) := by
  constructor
  · rintro (h | h | h)
    · exact .inr (.inr ⟨h, rfl⟩)
    · exact .inl ⟨rfl, h, rfl⟩
    · exact .inr (.inl ⟨rfl, h, rfl⟩)
  · rintro (⟨rfl, h, rfl⟩ | ⟨rfl, h, rfl⟩ | ⟨h, rfl⟩)
    · exact .plus h
    · exact .minus h
    · exact .bare h

/-- Just the decimal forms of integers of 64 bits are read. -/
theorem readInteger_eq_ok_iff {s : Bytes} {m : Int} : readInteger s = .ok m ↔
    Decimal s m ∧ Word.leastSigned ≤ m ∧ m ≤ Word.greatestSigned := by
  cases s with
  | nil =>
    refine iff_of_false nofun ?_
    rintro ⟨h | _ | _, -⟩
    exact h.1 rfl
  | cons b ds =>
    have hplus : ¬SomeDigits (0x2B :: ds) := fun h => by
      have hb := h.2 0x2B List.mem_cons_self
      cases hb
    have hminus : ¬SomeDigits (0x2D :: ds) := fun h => by
      have hb := h.2 0x2D List.mem_cons_self
      cases hb
    have hnone : ¬SomeDigits [] := fun h => h.1 rfl
    rw [decimal_cons_iff, readInteger]
    by_cases hp : b = 0x2B
    · subst hp
      cases ds with
      | nil => simp [hnone, hplus]
      | cons c ds => simp [hplus, takesDigits_takeUp.zero_eq_ok_iff, IsWord, and_assoc]
    · by_cases hm : b = 0x2D
      · subst hm
        cases ds with
        | nil => simp [hnone, hminus]
        | cons c ds => simp [hminus, takesDigits_takeDown.zero_eq_ok_iff, IsWord, and_assoc]
      · simp [hp, hm, takesDigits_takeUp.zero_eq_ok_iff, IsWord, and_assoc]

/-- A text is the decimal form of at most one integer. -/
theorem Decimal.unique {s : Bytes} {m n : Int} (hm : Decimal s m) (hn : Decimal s n) : m = n := by
  have hsign {b : UInt8} {ds : Bytes} (h : SomeDigits (b :: ds)) : Bytes.isDigit b = true :=
    h.2 b List.mem_cons_self
  cases hm with
  | bare h =>
    cases hn with
    | bare => rfl
    | plus => cases hsign h
    | minus => cases hsign h
  | plus h =>
    cases hn with
    | bare h' => cases hsign h'
    | plus => rfl
  | minus h =>
    cases hn with
    | bare h' => cases hsign h'
    | minus => rfl

/-! ## Writing -/

theorem ofString_toString (n : Nat) : Bytes.ofString (toString n) =
    (if n < 10 then [] else Bytes.ofString (toString (n / 10))) ++
      [UInt8.ofNat (0x30 + n % 10)] := by
  have hdigit {d : Nat} (hd : d < 10) :
      String.utf8EncodeChar d.digitChar = [UInt8.ofNat (0x30 + d)] := by
    interval_cases d <;> rfl
  rw [Nat.toString_eq_ofList_toDigits, Bytes.ofString_ofList, Nat.toDigits_eq_if (by omega)]
  split
  · next hn => simp [hdigit hn, Nat.mod_eq_of_lt hn]
  · rw [List.flatMap_append, ← Bytes.ofString_ofList, ← Nat.toString_eq_ofList_toDigits,
      List.flatMap_singleton, hdigit (Nat.mod_lt n (by omega))]

theorem isDigit_ofNat {d : Nat} (hd : d < 10) : Bytes.isDigit (UInt8.ofNat (0x30 + d)) = true := by
  interval_cases d <;> rfl

/-- The form of a positive number begins with no zero. -/
theorem exists_cons_of_toString {n : Nat} (hn : 0 < n) : ∃ b s,
    Bytes.ofString (toString n) = b :: s ∧ Bytes.isDigit b = true ∧ b ≠ 0x30 ∧ AllDigits s := by
  induction n using Nat.strongRecOn with
  | ind n ih =>
    rw [ofString_toString]
    split
    · next hlt =>
      rw [Nat.mod_eq_of_lt hlt]
      refine ⟨_, [], rfl, isDigit_ofNat hlt, ?_, allDigits_nil⟩
      interval_cases n <;> decide
    · next hle =>
      obtain ⟨b, s, hs, hb, hzero, hdigits⟩ := ih (n / 10) (by omega) (by omega)
      rw [hs]
      refine ⟨b, _, rfl, hb, hzero, List.forall_mem_append.2 ⟨hdigits, ?_⟩⟩
      exact List.forall_mem_singleton.2 (isDigit_ofNat (Nat.mod_lt n (by omega)))

theorem whole_toString (n : Nat) : Whole (Bytes.ofString (toString n)) := by
  rcases Nat.eq_zero_or_pos n with rfl | hn
  · exact .zero
  · obtain ⟨b, s, hs, hb, hzero, hdigits⟩ := exists_cons_of_toString hn
    rw [hs]
    exact .digits hb hzero hdigits

theorem ofString_negSucc (m : Nat) : Bytes.ofString (toString (Int.negSucc m)) =
    0x2D :: Bytes.ofString (toString (m + 1)) := by
  rw [show toString (Int.negSucc m) = "-" ++ toString (m + 1) from rfl, Bytes.ofString_append]
  rfl

/-- An integer is written as a number of JSON. -/
theorem number_toString (n : Int) : Number (Bytes.ofString (toString n)) := by
  have hwhole (m : Nat) : Seq Whole (Seq Fraction Exponent) (Bytes.ofString (toString m)) :=
    ⟨_, [], whole_toString m, ⟨[], [], .none, .none, rfl⟩, (List.append_nil _).symm⟩
  cases n with
  | ofNat m => exact .positive (hwhole m)
  | negSucc m =>
    rw [ofString_negSucc]
    exact .negative (hwhole (m + 1))

theorem digitsFrom_toString (n : Nat) : digitsFrom 0 (Bytes.ofString (toString n)) = n := by
  have hdigit {d : Nat} (hd : d < 10) : Bytes.digitValue (UInt8.ofNat (0x30 + d)) = d := by
    interval_cases d <;> rfl
  induction n using Nat.strongRecOn with
  | ind n ih =>
    rw [ofString_toString, digitsFrom_concat, hdigit (Nat.mod_lt n (by omega))]
    split
    · next hlt => simp [digitsFrom, Nat.mod_eq_of_lt hlt]
    · rw [ih (n / 10) (by omega)]
      omega

/-- An integer is written in a decimal form of its own. -/
theorem decimal_toString (n : Int) : Decimal (Bytes.ofString (toString n)) n := by
  have hsome (m : Nat) : SomeDigits (Bytes.ofString (toString m)) := (whole_toString m).someDigits
  cases n with
  | ofNat m =>
    have h := Decimal.bare (hsome m)
    rwa [digitsFrom_toString] at h
  | negSucc m =>
    have h := Decimal.minus (hsome (m + 1))
    rw [digitsFrom_toString] at h
    rw [ofString_negSucc]
    exact h

end JsonCabinet.Text
