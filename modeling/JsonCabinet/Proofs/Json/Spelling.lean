import JsonCabinet.Json.Quoted
import JsonCabinet.Proofs.Json.Soundness
import JsonCabinet.Proofs.Text.Utf8

/-!
# What a quoted string stands for

A text between quotes spells a content: a byte from the blank on stands for itself, and an escape
for the character that it names, where the halves of a surrogate pair name one character together
and neither names one alone (`Spelled`). A quoted string is read just if it spells a string
(`read_eq_ok_iff`), and the escaped form of a string spells it (`spelled_escape`). A content is
well-formed UTF-8 just if the text that spells it is (`Spelled.isUtf8_iff`).
-/

namespace JsonCabinet.Json

/-! ## Spelling -/

namespace Grammar

def IsHighHalf (n : Nat) : Prop := 0xD800 ≤ n ∧ n ≤ 0xDBFF

def IsLowHalf (n : Nat) : Prop := 0xDC00 ≤ n ∧ n ≤ 0xDFFF

/-- Hexadecimal digits that go on with a number. -/
inductive HexFrom : Nat → Bytes → Nat → Prop
  | nil {n : Nat} : HexFrom n [] n
  | cons {n d m : Nat} {b : UInt8} {h : Bytes} (hb : Bytes.hexValue? b = some d)
    (hh : HexFrom (n * 16 + d) h m) : HexFrom n (b :: h) m

/-- Four hexadecimal digits of this value. -/
def CodeUnit (h : Bytes) (n : Nat) : Prop := h.length = 4 ∧ HexFrom 0 h n

/-- The escape of a low half, which names a character together with the high one. -/
inductive Paired (high : Nat) : Bytes → Char → Prop
  | mk {low : Nat} {l : Bytes} {c : Char} (hl : CodeUnit l low) (hlow : IsLowHalf low)
    (hc : c.toNat = 0x10000 + (high - 0xD800) * 0x400 + (low - 0xDC00)) :
    Paired high (0x5C :: 0x75 :: l) c

/-- What follows a code unit, with the character that both name. -/
inductive Completed (n : Nat) : Bytes → Char → Prop
  | alone {c : Char} (hc : c.toNat = n) : Completed n [] c
  | paired {e : Bytes} {c : Char} (hn : IsHighHalf n) (he : Paired n e c) : Completed n e c

/-- The bytes that stand for one character each behind a backslash, with its code. -/
def simpleEscapes : List (UInt8 × Nat) :=
  [(0x22, 0x22), (0x5C, 0x5C), (0x2F, 0x2F), (0x62, 0x08), (0x66, 0x0C), (0x6E, 0x0A),
    (0x72, 0x0D), (0x74, 0x09)]

/-- What may follow a backslash, with the character that it names. -/
inductive Names : Bytes → Char → Prop
  | simple {b : UInt8} {c : Char} (h : (b, c.toNat) ∈ simpleEscapes) : Names [b] c
  | code {h e : Bytes} {n : Nat} {c : Char} (hn : CodeUnit h n) (he : Completed n e c) :
    Names (0x75 :: (h ++ e)) c

/-- A content, and a text between quotes that stands for it. -/
inductive Spelled : Bytes → Bytes → Prop
  | nil : Spelled [] []
  | plain {b : UInt8} {n s : Bytes} (hc : 0x20 ≤ b) (hq : b ≠ 0x22) (hb : b ≠ 0x5C)
    (hs : Spelled n s) : Spelled (b :: n) (b :: s)
  | escape {e n s : Bytes} {c : Char} (he : Names e c) (hs : Spelled n s) :
    Spelled (String.utf8EncodeChar c ++ n) (0x5C :: (e ++ s))

theorem lt_of_hexValue? {b : UInt8} {d : Nat} (h : Bytes.hexValue? b = some d) : d < 16 := by
  have upto {low high : UInt8} (hb : (decide (low ≤ b) && decide (b ≤ high)) = true) :
      b.toNat ≤ high.toNat :=
    UInt8.le_iff_toNat_le.1 (of_decide_eq_true (Bool.and_eq_true_iff.1 hb).2)
  unfold Bytes.hexValue? at h
  split at h
  · next hb =>
    have hle : b.toNat ≤ 0x39 := upto hb
    cases h
    omega
  · split at h
    · next hb =>
      have hle : b.toNat ≤ 0x66 := upto hb
      cases h
      omega
    · split at h
      · next hb =>
        have hle : b.toNat ≤ 0x46 := upto hb
        cases h
        omega
      · cases h

theorem HexFrom.isHexDigit {n m : Nat} {h : Bytes} (hh : HexFrom n h m) :
    ∀ b ∈ h, IsHexDigit b := by
  induction hh with
  | nil => exact fun _ h => nomatch h
  | cons hb _ ih =>
    have hdigit := Scan.isHexDigit_of_hexValue? (Option.isSome_of_eq_some hb)
    exact List.forall_mem_cons.2 ⟨hdigit, ih⟩

theorem CodeUnit.escape {h : Bytes} {n : Nat} (hh : CodeUnit h n) : Escape (0x75 :: h) :=
  .code hh.1 hh.2.isHexDigit

/-- A text that spells something may stand between quotes. -/
theorem Spelled.inner {n s : Bytes} (h : Spelled n s) : Inner s := by
  induction h with
  | nil => exact .nil
  | plain hc hq hb _ ih => exact .plain hc hq hb ih
  | @escape e n s c he hs ih =>
    cases he with
    | @simple b c h =>
      refine .escape (.simple ?_) ih
      simp only [simpleEscapes, List.mem_cons, Prod.mk.injEq, List.not_mem_nil, or_false] at h ⊢
      tauto
    | @code h e n c hn he =>
      cases he with
      | alone => simpa using Inner.escape hn.escape ih
      | paired _ he =>
        obtain ⟨hl, -, -⟩ := he
        simpa using Inner.escape hn.escape (.escape hl.escape ih)

theorem IsHexDigit.lt {b : UInt8} (h : IsHexDigit b) : b < 0x80 := by
  have hle : b ≤ 0x66 := by
    rcases h with h | h | h
    · exact UInt8.le_trans (by simpa using (Bool.and_eq_true_iff.1 h).2) (by decide)
    · exact h.2
    · exact UInt8.le_trans h.2 (by decide)
  exact UInt8.lt_of_le_of_lt hle (by decide)

theorem CodeUnit.lt {h : Bytes} {n : Nat} (hh : CodeUnit h n) : ∀ b ∈ h, b < 0x80 :=
  fun b hb => (hh.2.isHexDigit b hb).lt

/-- Escapes are written in ASCII. -/
theorem Names.lt {e : Bytes} {c : Char} (h : Names e c) : ∀ b ∈ e, b < 0x80 := by
  cases h with
  | @simple b c h =>
    rw [List.forall_mem_singleton]
    simp only [simpleEscapes, List.mem_cons, Prod.mk.injEq, List.not_mem_nil, or_false] at h
    rcases h with ⟨rfl, -⟩ | ⟨rfl, -⟩ | ⟨rfl, -⟩ | ⟨rfl, -⟩ | ⟨rfl, -⟩ | ⟨rfl, -⟩ | ⟨rfl, -⟩ |
      ⟨rfl, -⟩
    all_goals decide
  | @code h e n c hn he =>
    refine List.forall_mem_cons.2 ⟨by decide, List.forall_mem_append.2 ⟨hn.lt, ?_⟩⟩
    cases he with
    | alone => exact fun _ h => nomatch h
    | paired _ he =>
      obtain ⟨hl, -, -⟩ := he
      exact List.forall_mem_cons.2 ⟨by decide, List.forall_mem_cons.2 ⟨by decide, hl.lt⟩⟩

/-- What stands in front does not matter, as no character is spelled only in part. -/
theorem Spelled.isUtf8_iff {n s : Bytes} (h : Spelled n s) (p : Bytes) :
    Bytes.IsUtf8 (p ++ n) ↔ Bytes.IsUtf8 (p ++ s) := by
  induction h generalizing p with
  | nil => rfl
  | @plain b n s _ _ _ _ ih => simpa using ih (p ++ [b])
  | @escape e n s c he _ ih =>
    have hascii := Bytes.isUtf8_of_ascii he.lt
    rw [Bytes.isUtf8_append_char, Bytes.isUtf8_append_cons (by decide), hascii.append_iff]
    exact and_congr_right fun _ => ih []

end Grammar

/-! ## Reading what is spelled -/

namespace Quoted

open Grammar

section Runs

variable {control control' : Control} {b : UInt8} {more acc s : Bytes}

theorem run_of_goOn (h : step control b = .goOn control' more) :
    run control acc (b :: s) = run control' (more.reverseAux acc) s := by
  rw [run, h]

/-- The digits of a code unit are read up to what it does. -/
theorem run_hex {high : Option Nat} {left value m : Nat} {h content : Bytes}
    (hh : HexFrom value h m) (hl : h.length = left + 1)
    (hm : codeUnit high m = .goOn control content) :
    run (.hex high left value true) acc (h ++ s) = run control (content.reverseAux acc) s := by
  induction hh generalizing left with
  | nil => cases hl
  | @cons n d m b h hb hh ih =>
    cases left with
    | zero =>
      obtain rfl := List.eq_nil_of_length_eq_zero (Nat.succ.inj hl)
      cases hh
      have hstep : step (.hex high 0 n true) b = .goOn control content := by
        simp [step, hb, hm]
      exact run_of_goOn hstep
    | succ left =>
      have hstep : step (.hex high (left + 1) n true) b =
          .goOn (.hex high left (n * 16 + d) true) [] := by
        simp [step, hb]
      rw [List.cons_append, run_of_goOn hstep]
      exact ih (Nat.succ.inj hl) hm

theorem run_unit {high : Option Nat} {m : Nat} {h content : Bytes} (hh : CodeUnit h m)
    (hm : codeUnit high m = .goOn control content) :
    run (.hex high 3 0 true) acc (h ++ s) = run control (content.reverseAux acc) s :=
  run_hex hh.2 hh.1 hm

theorem isHighSurrogate_iff {n : Nat} : isHighSurrogate n = true ↔ IsHighHalf n := by
  simp [isHighSurrogate, IsHighHalf]

theorem isLowSurrogate_iff {n : Nat} : isLowSurrogate n = true ↔ IsLowHalf n := by
  simp [isLowSurrogate, IsLowHalf]

theorem codeUnit_char (c : Char) :
    codeUnit none c.toNat = .goOn .plain (String.utf8EncodeChar c) := by
  have hvalid : c.toNat < 0xD800 ∨ 0xDFFF < c.toNat ∧ c.toNat < 0x110000 := c.valid
  have hlow : ¬IsLowHalf c.toNat := fun ⟨_, _⟩ => by omega
  have hhigh : ¬IsHighHalf c.toNat := fun ⟨_, _⟩ => by omega
  rw [codeUnit, if_neg (mt isLowSurrogate_iff.1 hlow), if_neg (mt isHighSurrogate_iff.1 hhigh),
    encodeChar, Char.ofNat_toNat]

theorem codeUnit_high {n : Nat} (hn : IsHighHalf n) :
    codeUnit none n = .goOn (.lowEscape n) [] := by
  have hlow : ¬IsLowHalf n := fun ⟨_, _⟩ => by
    obtain ⟨_, _⟩ := hn
    omega
  rw [codeUnit, if_neg (mt isLowSurrogate_iff.1 hlow), if_pos (isHighSurrogate_iff.2 hn)]

theorem codeUnit_low {high low : Nat} {c : Char} (hlow : IsLowHalf low)
    (hc : c.toNat = 0x10000 + (high - 0xD800) * 0x400 + (low - 0xDC00)) :
    codeUnit (some high) low = .goOn .plain (String.utf8EncodeChar c) := by
  rw [codeUnit, if_pos (isLowSurrogate_iff.2 hlow), ← hc, encodeChar, Char.ofNat_toNat]

theorem simpleEscape?_eq {b : UInt8} {c : Char} (h : (b, c.toNat) ∈ simpleEscapes) :
    ∃ d, simpleEscape? b = some d ∧ String.utf8EncodeChar c = [d] := by
  have hchar (n : Nat) (d : UInt8) (hn : c.toNat = n)
      (hd : String.utf8EncodeChar (Char.ofNat n) = [d]) : String.utf8EncodeChar c = [d] := by
    rw [← hd, ← hn, Char.ofNat_toNat]
  simp only [simpleEscapes, List.mem_cons, Prod.mk.injEq, List.not_mem_nil, or_false] at h
  rcases h with ⟨rfl, h⟩ | ⟨rfl, h⟩ | ⟨rfl, h⟩ | ⟨rfl, h⟩ | ⟨rfl, h⟩ | ⟨rfl, h⟩ | ⟨rfl, h⟩ |
    ⟨rfl, h⟩
  all_goals exact ⟨_, rfl, hchar _ _ h rfl⟩

/-- A character is read off the escape that names it. -/
theorem run_names {e : Bytes} {c : Char} (h : Names e c) (acc s : Bytes) :
    run .plain acc (0x5C :: (e ++ s)) =
      run .plain ((String.utf8EncodeChar c).reverseAux acc) s := by
  have ho : step .plain 0x5C = .goOn .escape [] := rfl
  have hu : step .escape 0x75 = .goOn (.hex none 3 0 true) [] := rfl
  rw [run_of_goOn ho]
  cases h with
  | @simple b c h =>
    obtain ⟨d, hd, hc⟩ := simpleEscape?_eq h
    have hs : step .escape b = .goOn .plain [d] := by simp only [step, hd]
    rw [hc]
    exact run_of_goOn hs
  | @code h e n c hn he =>
    rw [List.cons_append, run_of_goOn hu, List.append_assoc]
    cases he with
    | alone hc =>
      subst hc
      exact run_unit hn (codeUnit_char c)
    | paired hhigh he =>
      obtain ⟨hl, hlow, hc⟩ := he
      have hb : step (.lowEscape n) 0x5C = .goOn (.lowMark n) [] := rfl
      have hm : step (.lowMark n) 0x75 = .goOn (.hex (some n) 3 0 true) [] := rfl
      rw [run_unit hn (codeUnit_high hhigh), List.cons_append, run_of_goOn hb, List.cons_append,
        run_of_goOn hm]
      exact run_unit hl (codeUnit_low hlow hc)

/-- The content is read off the text that spells it. -/
theorem run_spelled {n q : Bytes} (h : Spelled n q) (acc s : Bytes) :
    run .plain acc (q ++ s) = run .plain (n.reverse ++ acc) s := by
  induction h generalizing acc with
  | nil => rfl
  | @plain b n q hc hq hb _ ih =>
    have hs : step .plain b = .goOn .plain [b] := by simp [step, hq, hb, UInt8.not_lt.2 hc]
    rw [List.cons_append, run_of_goOn hs, ih]
    simp
  | @escape e n q c he _ ih =>
    rw [List.cons_append, List.append_assoc, run_names he, ih]
    simp

end Runs

/-! ## What has been read -/

/-- The text begins with a character that is named in this way. -/
def Begins (P : Bytes → Char → Prop) (n q : Bytes) : Prop :=
  ∃ e c m r, P e c ∧ Spelled m r ∧ n = String.utf8EncodeChar c ++ m ∧ q = e ++ r

theorem Begins.cons {P P' : Bytes → Char → Prop} {b : UInt8} {n q : Bytes}
    (hP : ∀ e c, P e c → P' (b :: e) c) (h : Begins P n q) : Begins P' n (b :: q) := by
  obtain ⟨e, c, m, r, he, hs, rfl, rfl⟩ := h
  exact ⟨b :: e, c, m, r, hP e c he, hs, rfl, rfl⟩

/-- What is still to be read up to the closing quote, and what it stands for. -/
def Lang : Control → Bytes → Bytes → Prop
  | .plain => Spelled
  | .escape => Begins Names
  | .hex none left value true => Begins fun e c =>
    ∃ h r n, h.length = left + 1 ∧ HexFrom value h n ∧ Completed n r c ∧ e = h ++ r
  | .hex (some high) left value true => Begins fun e c =>
    ∃ low, e.length = left + 1 ∧ HexFrom value e low ∧ IsLowHalf low ∧
      c.toNat = 0x10000 + (high - 0xD800) * 0x400 + (low - 0xDC00)
  | .hex _ _ _ false => fun _ _ => False
  | .lowEscape high => Begins (Paired high)
  | .lowMark high => Begins fun e c => Paired high (0x5C :: e) c

/-- What the numbers of a state that is reached are known to be. -/
def Control.Bounded : Control → Prop
  | .hex high left value _ => (value + 1) * 16 ^ (left + 1) ≤ 0x10000 ∧ ∀ n ∈ high, IsHighHalf n
  | .lowEscape high | .lowMark high => IsHighHalf high
  | .plain | .escape => True

section Steps

variable {control control' : Control} {b : UInt8} {more acc s : Bytes}

theorem codeUnit_eq_goOn {high : Option Nat} {n : Nat}
    (h : codeUnit high n = .goOn control more) :
    (high = none ∧ IsHighHalf n ∧ control = .lowEscape n ∧ more = []) ∨
    (high = none ∧ ¬IsHighHalf n ∧ ¬IsLowHalf n ∧ control = .plain ∧ more = encodeChar n) ∨
    ∃ m, high = some m ∧ IsLowHalf n ∧ control = .plain ∧
      more = encodeChar (0x10000 + (m - 0xD800) * 0x400 + (n - 0xDC00)) := by
  cases high with
  | none =>
    simp only [codeUnit] at h
    split at h
    · cases h
    · next hlow =>
      split at h
      · next hhigh =>
        cases h
        exact .inl ⟨rfl, isHighSurrogate_iff.1 hhigh, rfl, rfl⟩
      · next hhigh =>
        cases h
        refine .inr (.inl ⟨rfl, ?_, ?_, rfl, rfl⟩)
        · exact mt isHighSurrogate_iff.2 hhigh
        · exact mt isLowSurrogate_iff.2 hlow
  | some m =>
    simp only [codeUnit] at h
    split at h
    · next hlow =>
      cases h
      exact .inr (.inr ⟨m, rfl, isLowSurrogate_iff.1 hlow, rfl, rfl⟩)
    · cases h

/-- One more digit of a code unit. -/
theorem step_hex_cases {high : Option Nat} {left value : Nat} {sound : Bool}
    (h : step (.hex high left value sound) b = .goOn control' more) :
    (∃ n, left = n + 1 ∧ more = [] ∧
      control' = .hex high n (value * 16 + (Bytes.hexValue? b).getD 0)
        (sound && (Bytes.hexValue? b).isSome)) ∨
    ∃ d, left = 0 ∧ sound = true ∧ Bytes.hexValue? b = some d ∧
      codeUnit high (value * 16 + d) = .goOn control' more := by
  cases left with
  | succ n =>
    cases h
    exact .inl ⟨n, rfl, rfl, rfl⟩
  | zero =>
    simp only [step] at h
    split at h
    · next hs =>
      obtain ⟨rfl, hd⟩ := Bool.and_eq_true_iff.1 hs
      obtain ⟨d, hd⟩ := Option.isSome_iff_exists.1 hd
      rw [hd] at h
      exact .inr ⟨d, rfl, rfl, hd, h⟩
    · cases h

theorem bounded_step (hc : control.Bounded) (h : step control b = .goOn control' more) :
    control'.Bounded := by
  cases control with
  | plain =>
    simp only [step] at h
    repeat' split at h
    all_goals cases h
    all_goals trivial
  | escape =>
    simp only [step] at h
    repeat' split at h
    all_goals cases h
    · trivial
    · exact ⟨by decide, fun _ h => nomatch h⟩
  | hex high left value sound =>
    obtain ⟨hvalue, hhigh⟩ := hc
    -- A digit takes one power of 16 away from the digits that are left.
    rcases step_hex_cases h with ⟨n, rfl, -, rfl⟩ | ⟨d, -, -, -, hunit⟩
    · have hd : (Bytes.hexValue? b).getD 0 < 16 := by
        cases hb : Bytes.hexValue? b with
        | none => decide
        | some d => exact lt_of_hexValue? hb
      have hle : (value * 16 + (Bytes.hexValue? b).getD 0 + 1) * 16 ^ (n + 1) ≤
          (value + 1) * 16 * 16 ^ (n + 1) := Nat.mul_le_mul_right _ (by omega)
      refine ⟨hle.trans ?_, hhigh⟩
      rwa [Nat.mul_assoc, ← Nat.pow_succ']
    · rcases codeUnit_eq_goOn hunit with ⟨-, hn, rfl, -⟩ | ⟨-, -, -, rfl, -⟩ | ⟨m, -, -, rfl, -⟩
      · exact hn
      · trivial
      · trivial
  | lowEscape high =>
    simp only [step] at h
    split at h
    · cases h
      exact hc
    · cases h
  | lowMark high =>
    simp only [step] at h
    split at h
    · cases h
      exact ⟨by decide, fun n hn => Option.mem_some.1 hn ▸ hc⟩
    · cases h

theorem toNat_ofNat {n : Nat} (hn : n < 0x110000) (hhigh : ¬IsHighHalf n) (hlow : ¬IsLowHalf n) :
    (Char.ofNat n).toNat = n := by
  have hvalid : n.isValidChar := by
    rw [IsHighHalf] at hhigh
    rw [IsLowHalf] at hlow
    rw [Nat.isValidChar]
    omega
  rw [Char.toNat_ofNat, if_pos hvalid]

theorem names_of_simpleEscape? {d : UInt8} (h : simpleEscape? b = some d) :
    ∃ c, Names [b] c ∧ String.utf8EncodeChar c = [d] := by
  have hchar {k : UInt8} (hb : (b == k) = true) (n : Nat)
      (hn : (k, (Char.ofNat n).toNat) ∈ simpleEscapes)
      (hd : String.utf8EncodeChar (Char.ofNat n) = [d]) :
      ∃ c, Names [b] c ∧ String.utf8EncodeChar c = [d] :=
    ⟨_, .simple (beq_iff_eq.1 hb ▸ hn), hd⟩
  unfold simpleEscape? at h
  repeat' split at h
  all_goals cases h
  · next hb => exact hchar hb 0x22 (by decide) rfl
  · next hb => exact hchar hb 0x5C (by decide) rfl
  · next hb => exact hchar hb 0x2F (by decide) rfl
  · next hb => exact hchar hb 0x08 (by decide) rfl
  · next hb => exact hchar hb 0x0C (by decide) rfl
  · next hb => exact hchar hb 0x0A (by decide) rfl
  · next hb => exact hchar hb 0x0D (by decide) rfl
  · next hb => exact hchar hb 0x09 (by decide) rfl

theorem not_lang_unsound {high : Option Nat} {left value : Nat} {n q : Bytes} :
    ¬Lang (.hex high left value false) n q := by
  cases high with
  | none => exact fun h => h
  | some high => exact fun h => h

/-- A digit belongs to the code unit that the digits behind it go on with. -/
theorem lang_digit {high : Option Nat} {left value : Nat} {sound : Bool} {n q : Bytes}
    (hq : Lang (.hex high left (value * 16 + (Bytes.hexValue? b).getD 0)
      (sound && (Bytes.hexValue? b).isSome)) n q) :
    Lang (.hex high (left + 1) value sound) n (b :: q) := by
  cases sound with
  | false => exact (not_lang_unsound hq).elim
  | true =>
    cases hd : Bytes.hexValue? b with
    | none =>
      rw [hd] at hq
      exact (not_lang_unsound hq).elim
    | some d =>
      rw [hd] at hq
      cases high with
      | none =>
        refine hq.cons fun e c he => ?_
        obtain ⟨h, r, n, hl, hh, hr, rfl⟩ := he
        exact ⟨b :: h, r, n, congrArg (· + 1) hl, .cons hd hh, hr, rfl⟩
      | some high =>
        refine hq.cons fun e c he => ?_
        obtain ⟨low, hl, hh, hlow, hc⟩ := he
        exact ⟨low, congrArg (· + 1) hl, .cons hd hh, hlow, hc⟩

/-- The last digit of a code unit names a character, or half of one. -/
theorem lang_lastDigit {high : Option Nat} {value d : Nat} {n q : Bytes}
    (hc : Control.Bounded (.hex high 0 value true)) (hd : Bytes.hexValue? b = some d)
    (h : codeUnit high (value * 16 + d) = .goOn control' more) (hq : Lang control' n q) :
    Lang (.hex high 0 value true) (more ++ n) (b :: q) := by
  obtain ⟨hvalue, hhigh⟩ := hc
  have hdigit := lt_of_hexValue? hd
  have hhex : HexFrom value [b] (value * 16 + d) := .cons hd .nil
  rcases codeUnit_eq_goOn h with ⟨rfl, hn, rfl, rfl⟩ | ⟨rfl, hn, hlow, rfl, rfl⟩ |
    ⟨m, rfl, hlow, rfl, hmore⟩
  · refine hq.cons fun e c he => ?_
    exact ⟨[b], e, _, rfl, hhex, .paired hn he, rfl⟩
  · have hchar : (Char.ofNat (value * 16 + d)).toNat = value * 16 + d :=
      toNat_ofNat (by omega) hn hlow
    exact ⟨[b], _, n, q, ⟨[b], [], _, rfl, hhex, .alone hchar, rfl⟩, hq, rfl, rfl⟩
  · obtain ⟨hm, hm'⟩ := hhigh m rfl
    obtain ⟨hl, hl'⟩ := hlow
    have hchar := toNat_ofNat
      (n := 0x10000 + (m - 0xD800) * 0x400 + (value * 16 + d - 0xDC00)) (by omega)
      (fun ⟨_, _⟩ => by omega) (fun ⟨_, _⟩ => by omega)
    rw [hmore]
    exact ⟨[b], _, n, q, ⟨_, rfl, hhex, ⟨hl, hl'⟩, hchar⟩, hq, rfl, rfl⟩

theorem lang_plain {n q : Bytes} (h : step .plain b = .goOn control' more)
    (hq : Lang control' n q) : Lang .plain (more ++ n) (b :: q) := by
  simp only [step] at h
  split at h
  · cases h
  · next hquote =>
    split at h
    · next hb =>
      obtain rfl := beq_iff_eq.1 hb
      cases h
      obtain ⟨e, c, m, r, he, hs, rfl, rfl⟩ := hq
      exact .escape he hs
    · next hb =>
      split at h
      · cases h
      · next hcontrol =>
        cases h
        exact .plain (UInt8.not_lt.1 hcontrol) (by simpa using hquote) (by simpa using hb) hq

theorem lang_escape {n q : Bytes} (h : step .escape b = .goOn control' more)
    (hq : Lang control' n q) : Lang .escape (more ++ n) (b :: q) := by
  simp only [step] at h
  split at h
  · next d hd =>
    cases h
    obtain ⟨c, hc, hchar⟩ := names_of_simpleEscape? hd
    exact ⟨[b], c, n, q, hc, hq, by rw [hchar], rfl⟩
  · split at h
    · next hb =>
      obtain rfl := beq_iff_eq.1 hb
      cases h
      refine hq.cons fun e c he => ?_
      obtain ⟨h, r, n, hl, hh, hr, rfl⟩ := he
      exact .code ⟨hl, hh⟩ hr
    · cases h

theorem lang_hex {high : Option Nat} {left value : Nat} {sound : Bool} {n q : Bytes}
    (hc : Control.Bounded (.hex high left value sound))
    (h : step (.hex high left value sound) b = .goOn control' more) (hq : Lang control' n q) :
    Lang (.hex high left value sound) (more ++ n) (b :: q) := by
  rcases step_hex_cases h with ⟨m, rfl, rfl, rfl⟩ | ⟨d, rfl, rfl, hd, hunit⟩
  · exact lang_digit hq
  · exact lang_lastDigit hc hd hunit hq

theorem lang_lowEscape {high : Nat} {n q : Bytes}
    (h : step (.lowEscape high) b = .goOn control' more) (hq : Lang control' n q) :
    Lang (.lowEscape high) (more ++ n) (b :: q) := by
  simp only [step] at h
  split at h
  · next hb =>
    obtain rfl := beq_iff_eq.1 hb
    cases h
    exact hq.cons fun _ _ he => he
  · cases h

theorem lang_lowMark {high : Nat} {n q : Bytes}
    (h : step (.lowMark high) b = .goOn control' more) (hq : Lang control' n q) :
    Lang (.lowMark high) (more ++ n) (b :: q) := by
  simp only [step] at h
  split at h
  · next hb =>
    obtain rfl := beq_iff_eq.1 hb
    cases h
    refine hq.cons fun e c he => ?_
    obtain ⟨low, hl, hlow, hhalf, hc⟩ := he
    exact ⟨⟨hl, hlow⟩, hhalf, hc⟩
  · cases h

/-- Before a step, what is to be read is the byte of the step and what is to be read after it. -/
theorem lang_step {n q : Bytes} (hc : control.Bounded)
    (h : step control b = .goOn control' more) (hq : Lang control' n q) :
    Lang control (more ++ n) (b :: q) := by
  cases control with
  | plain => exact lang_plain h hq
  | escape => exact lang_escape h hq
  | hex high left value sound => exact lang_hex hc h hq
  | lowEscape high => exact lang_lowEscape h hq
  | lowMark high => exact lang_lowMark h hq

theorem codeUnit_ne_done (high : Option Nat) (n : Nat) : codeUnit high n ≠ .done := by
  cases high with
  | none =>
    rw [codeUnit]
    repeat' split
    all_goals nofun
  | some m =>
    rw [codeUnit]
    split
    all_goals nofun

theorem eq_of_step_done (h : step control b = .done) : control = .plain ∧ b = 0x22 := by
  cases control with
  | plain =>
    simp only [step] at h
    split at h
    · next hb => exact ⟨rfl, beq_iff_eq.1 hb⟩
    · repeat' split at h
      all_goals cases h
  | hex high left value sound =>
    simp only [step] at h
    split at h
    · cases h
    · split at h
      · exact absurd h (codeUnit_ne_done _ _)
      · cases h
  | escape | lowEscape | lowMark =>
    simp only [step] at h
    repeat' split at h
    all_goals cases h

/-- A run to the closing quote has read what was to be read. -/
theorem lang_of_run {content rest : Bytes} (hc : control.Bounded)
    (h : run control acc s = .ok (content, rest)) :
    ∃ n q, Lang control n q ∧ s = q ++ 0x22 :: rest ∧ content = acc.reverse ++ n := by
  -- The bound on the numbers of a state goes along, as it makes code units of the digits.
  induction s generalizing control acc with
  | nil => cases h
  | cons b s ih =>
    rw [run] at h
    cases hs : step control b with
    | goOn control' more =>
      rw [hs] at h
      obtain ⟨n, q, hq, rfl, rfl⟩ := ih (bounded_step hc hs) h
      exact ⟨more ++ n, b :: q, lang_step hc hs hq, rfl, by simp⟩
    | done =>
      rw [hs] at h
      cases h
      obtain ⟨rfl, rfl⟩ := eq_of_step_done hs
      exact ⟨[], [], .nil, rfl, by simp⟩
    | fault cause =>
      rw [hs] at h
      cases h

end Steps

/-! ## Reading and writing -/

/-- Up to the closing quote just a text that spells a string is read. -/
theorem read_eq_ok_iff {s rest : Bytes} {name : String} :
    read s = .ok (name, rest) ↔
      ∃ q, Spelled (Bytes.ofString name) q ∧ s = q ++ 0x22 :: rest := by
  constructor
  · intro h
    obtain ⟨content, hr, hname⟩ := exists_content_of_read h
    have hplain : Control.Bounded .plain := trivial
    obtain ⟨n, q, hq, hs, hn⟩ := lang_of_run hplain hr
    rw [List.reverse_nil, List.nil_append] at hn
    rw [← Bytes.eq_ofString_of_toString? hname, hn]
    exact ⟨q, hq, hs⟩
  · rintro ⟨q, hq, rfl⟩
    have hrun : run .plain [] (q ++ 0x22 :: rest) = .ok (Bytes.ofString name, rest) := by
      rw [run_spelled hq]
      simp [run, step]
    simp [read, hrun, Bytes.toString?_ofString, bind, Except.bind]

/-- Both halves of a pair name one character, and a half that stands alone names none. -/
example : read (Bytes.ofString "\\ud83d\\ude00\":1") = .ok ("😀", Bytes.ofString ":1") ∧
    (read (Bytes.ofString "\\ud83d\":1")).isOk = false :=
  ⟨by cbv, by cbv⟩

theorem hexValue?_hexDigit : ∀ n < 16, Bytes.hexValue? (hexDigit n) = some n := by
  decide

/-- A byte below the blank is named by its code. -/
theorem names_controlCharacter {b : UInt8} (hb : b < 0x20) :
    Names [0x75, 0x30, 0x30, hexDigit (b.toNat / 16), hexDigit (b.toNat % 16)]
      (Char.ofNat b.toNat) := by
  have hlt : b.toNat < 0x20 := UInt8.lt_iff_toNat_lt.1 hb
  have hvalue : ((0 * 16 + 0) * 16 + 0) * 16 + b.toNat / 16 = b.toNat / 16 := by omega
  have hchar : (Char.ofNat b.toNat).toNat = b.toNat :=
    toNat_ofNat (by omega) (fun ⟨_, _⟩ => by omega) (fun ⟨_, _⟩ => by omega)
  have hhex : HexFrom 0 [0x30, 0x30, hexDigit (b.toNat / 16), hexDigit (b.toNat % 16)]
      b.toNat := by
    have hlast : HexFrom (b.toNat / 16) [hexDigit (b.toNat % 16)] b.toNat := by
      refine .cons (hexValue?_hexDigit _ (by omega)) ?_
      rw [Nat.div_add_mod']
      exact .nil
    refine .cons (d := 0) rfl (.cons (d := 0) rfl (.cons (hexValue?_hexDigit _ (by omega)) ?_))
    rwa [hvalue]
  exact .code (h := [_, _, _, _]) (e := []) ⟨rfl, hhex⟩ (.alone hchar)

theorem spelled_escapeByte (b : UInt8) {n q : Bytes} (h : Spelled n q) :
    Spelled (b :: n) (escapeByte b ++ q) := by
  have simple {c d : UInt8} (hb : (b == c) = true) (hd : simpleEscape? d = some c) :
      Spelled (b :: n) ([0x5C, d] ++ q) := by
    obtain ⟨ch, hch, hc⟩ := names_of_simpleEscape? hd
    rw [beq_iff_eq.1 hb]
    simpa [hc] using Spelled.escape hch h
  unfold escapeByte
  repeat' split
  · next hb => exact simple hb rfl
  · next hb => exact simple hb rfl
  · next hb => exact simple hb rfl
  · next hb => exact simple hb rfl
  · next hb => exact simple hb rfl
  · next hb => exact simple hb rfl
  · next hb => exact simple hb rfl
  · next hb =>
    have hlt : b < 0x80 := UInt8.lt_trans hb (by decide)
    simpa [Bytes.utf8EncodeChar_ofNat hlt] using Spelled.escape (names_controlCharacter hb) h
  · next hq hb _ _ _ _ _ hc =>
    exact .plain (UInt8.not_lt.1 hc) (by simpa using hq) (by simpa using hb) h

/-- The escaped form of a content spells it. -/
theorem spelled_escape (content : Bytes) : Spelled content (escape content) := by
  induction content with
  | nil => exact .nil
  | cons b content ih => exact spelled_escapeByte b ih

end Quoted

end JsonCabinet.Json
