import JsonCabinet.Proofs.Json.Completeness
import JsonCabinet.Proofs.Json.Spelling

/-!
# Halves of surrogate pairs

A text between quotes is a row of units, of which some are escapes of code units. It spells
something just if no escape of one half of a surrogate pair stands apart from one of the other half
(`exists_spelled_iff`), so this is all that a reader of strings asks beyond the grammar.
-/

namespace JsonCabinet.Json.Grammar

open Quoted

/-! ## Code units -/

theorem HexFrom.unique {n m m' : Nat} {h : Bytes} (hm : HexFrom n h m) (hm' : HexFrom n h m') :
    m = m' := by
  induction hm with
  | nil => cases hm'; rfl
  | cons hb _ ih =>
    cases hm' with
    | cons hb' hh' =>
      obtain rfl := Option.some.inj (hb.symm.trans hb')
      exact ih hh'

theorem HexFrom.lt {n m : Nat} {h : Bytes} (hm : HexFrom n h m) : m < (n + 1) * 16 ^ h.length := by
  induction hm with
  | nil => simp
  | @cons n d m b h hb _ ih =>
    have hd := lt_of_hexValue? hb
    calc m < (n * 16 + d + 1) * 16 ^ h.length := ih
      _ ≤ (n + 1) * 16 * 16 ^ h.length := Nat.mul_le_mul_right _ (by omega)
      _ = (n + 1) * 16 ^ (h.length + 1) := by rw [Nat.mul_assoc, ← Nat.pow_succ']

theorem exists_hexFrom {h : Bytes} (hh : ∀ b ∈ h, IsHexDigit b) (n : Nat) : ∃ m, HexFrom n h m := by
  induction h generalizing n with
  | nil => exact ⟨n, .nil⟩
  | cons b h ih =>
    obtain ⟨hb, hh⟩ := List.forall_mem_cons.1 hh
    obtain ⟨d, hd⟩ := Option.isSome_iff_exists.1 (Scan.isSome_hexValue? hb)
    obtain ⟨m, hm⟩ := ih hh (n * 16 + d)
    exact ⟨m, .cons hd hm⟩

theorem CodeUnit.le {h : Bytes} {n : Nat} (hn : CodeUnit h n) : n < 0x10000 := by
  have hlt := hn.2.lt
  rw [hn.1] at hlt
  omega

theorem IsHighHalf.not_low {n : Nat} (h : IsHighHalf n) : ¬IsLowHalf n := by
  rintro ⟨hlow, -⟩
  obtain ⟨-, hhigh⟩ := h
  omega

/-! ## Rows of units -/

/-- The units of a text between quotes in order: of the escape of a code unit its number, and of
any other unit nothing. -/
inductive Units : List (Option Nat) → Bytes → Prop
  | nil : Units [] []
  | plain {b : UInt8} {us : List (Option Nat)} {s : Bytes} (hc : 0x20 ≤ b) (hq : b ≠ 0x22)
    (hb : b ≠ 0x5C) (hs : Units us s) : Units (none :: us) (b :: s)
  | simple {b : UInt8} {us : List (Option Nat)} {s : Bytes}
    (hb : b ∈ [0x22, 0x5C, 0x2F, 0x62, 0x66, 0x6E, 0x72, 0x74]) (hs : Units us s) :
    Units (none :: us) (0x5C :: b :: s)
  | code {n : Nat} {us : List (Option Nat)} {h s : Bytes} (hh : CodeUnit h n) (hs : Units us s) :
    Units (some n :: us) (0x5C :: 0x75 :: (h ++ s))

/-- There is one half of a pair without the other one beside it. -/
def HasLoneHalf (us : List (Option Nat)) : Prop :=
  ∃ before n behind, us = before ++ some n :: behind ∧
    (IsHighHalf n ∧ (∀ m, behind.head? = some (some m) → ¬IsLowHalf m) ∨
      IsLowHalf n ∧ ∀ m, before.getLast? = some (some m) → ¬IsHighHalf m)

/-- A surrogate is escaped without the other half of its pair. -/
def Unpaired (q : Bytes) : Prop := ∃ us, Units us q ∧ HasLoneHalf us

section LoneHalves

variable {us : List (Option Nat)}

theorem not_hasLoneHalf_nil : ¬HasLoneHalf [] := by
  rintro ⟨before, n, behind, h, -⟩
  simp at h

theorem hasLoneHalf_low {n : Nat} (hn : IsLowHalf n) : HasLoneHalf (some n :: us) :=
  ⟨[], n, us, rfl, .inr ⟨hn, fun _ h => nomatch h⟩⟩

theorem hasLoneHalf_high {n : Nat} (hn : IsHighHalf n)
    (h : ∀ m, us.head? = some (some m) → ¬IsLowHalf m) : HasLoneHalf (some n :: us) :=
  ⟨[], n, us, rfl, .inl ⟨hn, h⟩⟩

/-- A unit that is no half does not matter. -/
theorem hasLoneHalf_cons_iff {u : Option Nat} (hu : ∀ n ∈ u, ¬IsHighHalf n ∧ ¬IsLowHalf n) :
    HasLoneHalf (u :: us) ↔ HasLoneHalf us := by
  constructor
  · rintro ⟨before, n, behind, h, hlone⟩
    cases before with
    | nil =>
      obtain ⟨rfl, rfl⟩ := List.cons.inj h
      obtain ⟨hhigh, hlow⟩ := hu n rfl
      exact (hlone.elim (fun h => hhigh h.1) fun h => hlow h.1).elim
    | cons v before =>
      obtain ⟨rfl, rfl⟩ := List.cons.inj h
      refine ⟨before, n, behind, rfl, hlone.imp_right fun ⟨hlow, hlast⟩ => ⟨hlow, fun m hm => ?_⟩⟩
      exact hlast m (by rw [List.getLast?_cons, hm, Option.getD_some])
  · rintro ⟨before, n, behind, rfl, hlone⟩
    refine ⟨u :: before, n, behind, rfl,
      hlone.imp_right fun ⟨hlow, hlast⟩ => ⟨hlow, fun m hm => ?_⟩⟩
    rw [List.getLast?_cons] at hm
    cases hb : before.getLast? with
    | none =>
      rw [hb, Option.getD_none] at hm
      exact (hu m (Option.some.inj hm)).1
    | some v =>
      rw [hb, Option.getD_some] at hm
      exact hlast m (hb.trans hm)

theorem hasLoneHalf_none_iff : HasLoneHalf (none :: us) ↔ HasLoneHalf us :=
  hasLoneHalf_cons_iff (by simp)

/-- Two halves of one pair do not matter. -/
theorem hasLoneHalf_pair_iff {high low : Nat} (hhigh : IsHighHalf high) (hlow : IsLowHalf low) :
    HasLoneHalf (some high :: some low :: us) ↔ HasLoneHalf us := by
  constructor
  · rintro ⟨before, n, behind, h, hlone⟩
    match before, h, hlone with
    | [], h, hlone =>
      cases h
      rcases hlone with ⟨-, hnext⟩ | ⟨hn, -⟩
      · exact absurd hlow (hnext low rfl)
      · exact absurd hn hhigh.not_low
    | [v], h, hlone =>
      cases h
      rcases hlone with ⟨hn, -⟩ | ⟨-, hlast⟩
      · exact absurd hlow hn.not_low
      · exact absurd hhigh (hlast high rfl)
    | v :: w :: before, h, hlone =>
      cases h
      refine ⟨before, n, behind, rfl, hlone.imp_right fun ⟨hn, hlast⟩ => ⟨hn, fun m hm => ?_⟩⟩
      exact hlast m (by simp [List.getLast?_cons, hm])
  · rintro ⟨before, n, behind, rfl, hlone⟩
    refine ⟨some high :: some low :: before, n, behind, rfl,
      hlone.imp_right fun ⟨hn, hlast⟩ => ⟨hn, fun m hm => ?_⟩⟩
    rw [List.getLast?_cons, List.getLast?_cons, Option.getD_some] at hm
    cases hb : before.getLast? with
    | none =>
      rw [hb, Option.getD_none] at hm
      cases hm
      exact fun hm => hm.not_low hlow
    | some v =>
      rw [hb, Option.getD_some] at hm
      exact hlast m (hb.trans hm)

end LoneHalves

/-! ## What spells something -/

section Units

variable {us : List (Option Nat)} {n q s : Bytes}

theorem exists_units (h : Inner q) : ∃ us, Units us q := by
  induction h with
  | nil => exact ⟨[], .nil⟩
  | plain hc hq hb _ ih =>
    obtain ⟨us, hus⟩ := ih
    exact ⟨none :: us, .plain hc hq hb hus⟩
  | escape he _ ih =>
    obtain ⟨us, hus⟩ := ih
    cases he with
    | simple hb => exact ⟨none :: us, .simple hb hus⟩
    | code hl hh =>
      obtain ⟨n, hn⟩ := exists_hexFrom hh 0
      exact ⟨some n :: us, .code ⟨hl, hn⟩ hus⟩

theorem Units.of_plain {b : UInt8} (h : Units us (b :: s)) (hb : b ≠ 0x5C) :
    ∃ rest, us = none :: rest ∧ Units rest s := by
  cases h with
  | plain _ _ _ hs => exact ⟨_, rfl, hs⟩
  | simple => exact absurd rfl hb
  | code => exact absurd rfl hb

theorem Units.of_simple {b : UInt8} (h : Units us (0x5C :: b :: s)) (hb : b ≠ 0x75) :
    ∃ rest, us = none :: rest ∧ Units rest s := by
  cases h with
  | plain _ _ hne => exact absurd rfl hne
  | simple _ hs => exact ⟨_, rfl, hs⟩
  | code => exact absurd rfl hb

theorem Units.of_code {m : Nat} {h : Bytes} (hs : Units us (0x5C :: 0x75 :: (h ++ s)))
    (hm : CodeUnit h m) : ∃ rest, us = some m :: rest ∧ Units rest s := by
  generalize ht : h ++ s = t at hs
  cases hs with
  | plain _ _ hne => exact absurd rfl hne
  | simple hb => simp at hb
  | code hm' hrest =>
    obtain ⟨rfl, rfl⟩ := List.append_inj ht (hm.1.trans hm'.1.symm)
    obtain rfl := hm.2.unique hm'.2
    exact ⟨_, rfl, hrest⟩

theorem not_half_of_char {c : Char} {n : Nat} (hn : c.toNat = n) :
    ¬IsHighHalf n ∧ ¬IsLowHalf n := by
  have hvalid : c.toNat < 0xD800 ∨ 0xDFFF < c.toNat ∧ c.toNat < 0x110000 := c.valid
  exact ⟨fun ⟨_, _⟩ => by omega, fun ⟨_, _⟩ => by omega⟩

theorem not_hasLoneHalf_of_spelled (h : Spelled n q) (hus : Units us q) : ¬HasLoneHalf us := by
  induction h generalizing us with
  | nil =>
    cases hus
    exact not_hasLoneHalf_nil
  | plain _ _ hb _ ih =>
    obtain ⟨rest, rfl, hrest⟩ := hus.of_plain hb
    rw [hasLoneHalf_none_iff]
    exact ih hrest
  | escape he _ ih =>
    cases he with
    | @simple b c h =>
      have hb : b ≠ 0x75 := by
        rintro rfl
        simp [simpleEscapes] at h
      obtain ⟨rest, rfl, hrest⟩ := hus.of_simple hb
      rw [hasLoneHalf_none_iff]
      exact ih hrest
    | code hm he =>
      rw [List.cons_append, List.append_assoc] at hus
      obtain ⟨rest, rfl, hrest⟩ := hus.of_code hm
      cases he with
      | alone hc =>
        rw [hasLoneHalf_cons_iff fun _ h => Option.mem_some.1 h ▸ not_half_of_char hc]
        exact ih hrest
      | paired hhigh he =>
        obtain ⟨hl, hlow, -⟩ := he
        obtain ⟨behind, rfl, hbehind⟩ := hrest.of_code hl
        rw [hasLoneHalf_pair_iff hhigh hlow]
        exact ih hbehind

theorem exists_names {b : UInt8} (hb : b ∈ [0x22, 0x5C, 0x2F, 0x62, 0x66, 0x6E, 0x72, 0x74]) :
    ∃ c, Names [b] c := by
  have hsome : (simpleEscape? b).isSome := by
    fin_cases hb
    all_goals rfl
  obtain ⟨d, hd⟩ := Option.isSome_iff_exists.1 hsome
  obtain ⟨c, hc, -⟩ := names_of_simpleEscape? hd
  exact ⟨c, hc⟩

/-- Without a lone half the units can be read, also behind a high half. -/
theorem spelled_of_units (hus : Units us q) :
    (¬HasLoneHalf us → ∃ n, Spelled n q) ∧
      ∀ high, IsHighHalf high → ¬HasLoneHalf (some high :: us) → ∃ n, Begins (Paired high) n q := by
  -- What follows a high half is read with it, so the induction speaks of that case as well.
  induction hus with
  | nil =>
    refine ⟨fun _ => ⟨[], .nil⟩, fun high hhigh h => absurd ?_ h⟩
    exact hasLoneHalf_high hhigh fun _ h => nomatch h
  | plain hc hq hb _ ih =>
    refine ⟨fun h => ?_, fun high hhigh h => absurd ?_ h⟩
    · rw [hasLoneHalf_none_iff] at h
      obtain ⟨n, hn⟩ := ih.1 h
      exact ⟨_, .plain hc hq hb hn⟩
    · exact hasLoneHalf_high hhigh fun _ h => by cases h
  | simple hb _ ih =>
    refine ⟨fun h => ?_, fun high hhigh h => absurd ?_ h⟩
    · rw [hasLoneHalf_none_iff] at h
      obtain ⟨n, hn⟩ := ih.1 h
      obtain ⟨c, hc⟩ := exists_names hb
      exact ⟨_, .escape hc hn⟩
    · exact hasLoneHalf_high hhigh fun _ h => by cases h
  | @code m us h s hm _ ih =>
    have hlt := hm.le
    refine ⟨fun hlone => ?_, fun high hhigh hlone => ?_⟩
    · by_cases hhigh : IsHighHalf m
      · obtain ⟨n, e, c, p, r, he, hr, rfl, rfl⟩ := ih.2 m hhigh hlone
        have hnames : Names (0x75 :: (h ++ e)) c := .code hm (.paired hhigh he)
        exact ⟨_, by simpa using Spelled.escape hnames hr⟩
      · by_cases hlow : IsLowHalf m
        · exact absurd (hasLoneHalf_low hlow) hlone
        · rw [hasLoneHalf_cons_iff fun _ h => Option.mem_some.1 h ▸ ⟨hhigh, hlow⟩] at hlone
          obtain ⟨n, hn⟩ := ih.1 hlone
          have hchar := toNat_ofNat (n := m) (by omega) hhigh hlow
          have hnames : Names (0x75 :: (h ++ [])) (Char.ofNat m) := .code hm (.alone hchar)
          exact ⟨_, by simpa using Spelled.escape hnames hn⟩
    · by_cases hlow : IsLowHalf m
      · rw [hasLoneHalf_pair_iff hhigh hlow] at hlone
        obtain ⟨n, hn⟩ := ih.1 hlone
        have hchar : (Char.ofNat (0x10000 + (high - 0xD800) * 0x400 + (m - 0xDC00))).toNat =
            0x10000 + (high - 0xD800) * 0x400 + (m - 0xDC00) := by
          obtain ⟨_, _⟩ := hhigh
          obtain ⟨_, _⟩ := hlow
          exact toNat_ofNat (by omega) (fun ⟨_, _⟩ => by omega) fun ⟨_, _⟩ => by omega
        exact ⟨_, _, _, _, _, .mk hm hlow hchar, hn, rfl, rfl⟩
      · refine absurd (hasLoneHalf_high hhigh fun n hn => ?_) hlone
        obtain rfl := Option.some.inj (Option.some.inj hn)
        exact hlow

/-- What may stand between quotes spells something just if no surrogate in it is unpaired. -/
theorem exists_spelled_iff (h : Inner q) : (∃ n, Spelled n q) ↔ ¬Unpaired q := by
  constructor
  · rintro ⟨n, hn⟩ ⟨us, hus, hlone⟩
    exact not_hasLoneHalf_of_spelled hn hus hlone
  · intro hpaired
    obtain ⟨us, hus⟩ := exists_units h
    exact (spelled_of_units hus).1 fun hlone => hpaired ⟨us, hus, hlone⟩

end Units

end JsonCabinet.Json.Grammar
