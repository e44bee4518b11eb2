import JsonCabinet.Proofs.Json.Soundness

/-!
# What the machine must accept

The machine reads every value of the grammar and stops behind it (`run_isValue`), whatever follows,
unless a number could go on. One statement for each symbol of the grammar (`Reads`) is proved along
the derivation (`reads_of_derives`).
-/

namespace JsonCabinet.Json.Scan

open Grammar

/-- No number could go on with this text. -/
def EndsNumber : Bytes → Prop
  | [] => True
  | b :: _ => Bytes.isDigit b = false ∧ b ≠ 0x2E ∧ b ≠ 0x65 ∧ b ≠ 0x45

/-- The run goes on behind a value. -/
def resume : List Bracket → Bytes → Except Fault Bytes
  | [], s => .ok s
  | k :: outer, s => run .after (k :: outer) s

section Steps

variable {control control' : Control} {stack stack' : List Bracket} {b : UInt8} {s : Bytes}

theorem run_of_goOn (h : step control stack b = .goOn control' stack') :
    run control stack (b :: s) = run control' stack' s := by
  rw [run, h]

theorem run_of_close (h : step control stack b = close stack') :
    run control stack (b :: s) = resume stack' s := by
  rw [run, h]
  cases stack' <;> rfl

theorem run_spaces {a : Bytes} (hstep : ∀ b, Bytes.isSpace b = true →
    step control stack b = .goOn control stack) (ha : Spaces a) :
    run control stack (a ++ s) = run control stack s := by
  induction a with
  | nil => rfl
  | cons b a ih =>
    obtain ⟨hb, ha⟩ := List.forall_mem_cons.1 ha
    rw [List.cons_append, run_of_goOn (hstep b hb), ih ha]

end Steps

/-! ## Numbers -/

theorem run_digits {part : Digits} {stack : List Bracket} {ds s : Bytes}
    (hstep : ∀ b, Bytes.isDigit b = true → part.step b = .goOn part) (h : AllDigits ds) :
    run (.number part) stack (ds ++ s) = run (.number part) stack s := by
  induction ds with
  | nil => rfl
  | cons b ds ih =>
    obtain ⟨hb, hds⟩ := List.forall_mem_cons.1 h
    have hs : step (.number part) stack b = .goOn (.number part) stack := by
      simp only [step, hstep b hb]
    rw [List.cons_append, run_of_goOn hs, ih hds]

theorem whole_step {b : UInt8} (h : Bytes.isDigit b = true) :
    Digits.whole.step b = .goOn .whole := by
  have h₁ := isDigit_ne (c := 0x2E) h (by decide)
  have h₂ := isDigit_ne (c := 0x65) h (by decide)
  have h₃ := isDigit_ne (c := 0x45) h (by decide)
  simp [Digits.step, h, h₁, h₂, h₃]

theorem fraction_step {b : UInt8} (h : Bytes.isDigit b = true) :
    Digits.fraction.step b = .goOn .fraction := by
  have h₂ := isDigit_ne (c := 0x65) h (by decide)
  have h₃ := isDigit_ne (c := 0x45) h (by decide)
  simp [Digits.step, h, h₂, h₃]

theorem exponent_step {b : UInt8} (h : Bytes.isDigit b = true) :
    Digits.exponent.step b = .goOn .exponent := by
  simp [Digits.step, h]

/-- A number that may end does so before a text that cannot go on with it. -/
theorem run_number_end {part : Digits} {stack : List Bracket} {s : Bytes}
    (hp : part.complete = true) (hs : EndsNumber s) :
    run (.number part) stack s = resume stack s := by
  cases s with
  | nil =>
    rw [run]
    simp only [finish, hp, if_true]
    cases stack <;> rfl
  | cons b s =>
    obtain ⟨hd, hpoint, he, hE⟩ := hs
    have hended : part.step b = .ended := by
      cases part <;> simp_all [Digits.step, Digits.complete]
    have hstep : step (.number part) stack b = behind stack b := by
      simp only [step, hended]
    rw [run, hstep]
    cases stack <;> rfl

theorem run_someDigits {part part' : Digits} {stack : List Bracket} {ds s : Bytes}
    (hfirst : ∀ b, Bytes.isDigit b = true → part.step b = .goOn part')
    (hmore : ∀ b, Bytes.isDigit b = true → part'.step b = .goOn part') (h : SomeDigits ds) :
    run (.number part) stack (ds ++ s) = run (.number part') stack s := by
  obtain ⟨hne, hds⟩ := h
  cases ds with
  | nil => exact absurd rfl hne
  | cons b ds =>
    obtain ⟨hb, hds⟩ := List.forall_mem_cons.1 hds
    have hs : step (.number part) stack b = .goOn (.number part') stack := by
      simp only [step, hfirst b hb]
    rw [List.cons_append, run_of_goOn hs, run_digits hmore hds]

theorem run_signed {stack : List Bracket} {e s : Bytes} (he : Seq Sign SomeDigits e)
    (hs : EndsNumber s) : run (.number .mark) stack (e ++ s) = resume stack s := by
  have hend : run (.number .exponent) stack s = resume stack s := run_number_end rfl hs
  have hsign : ∀ b, Bytes.isDigit b = true → Digits.sign.step b = .goOn .exponent := by
    intro b hb
    simp [Digits.step, hb]
  obtain ⟨_, ds, hsg, hds, rfl⟩ := he
  cases hsg with
  | none =>
    have hmark : ∀ b, Bytes.isDigit b = true → Digits.mark.step b = .goOn .exponent := by
      intro b hb
      have h₁ := isDigit_ne (c := 0x2B) hb (by decide)
      have h₂ := isDigit_ne (c := 0x2D) hb (by decide)
      simp [Digits.step, hb, h₁, h₂]
    rw [List.nil_append, run_someDigits hmark (fun _ => exponent_step) hds, hend]
  | plus =>
    have hp : step (.number .mark) stack 0x2B = .goOn (.number .sign) stack := rfl
    rw [List.singleton_append, List.cons_append, run_of_goOn hp,
      run_someDigits hsign (fun _ => exponent_step) hds, hend]
  | minus =>
    have hm : step (.number .mark) stack 0x2D = .goOn (.number .sign) stack := rfl
    rw [List.singleton_append, List.cons_append, run_of_goOn hm,
      run_someDigits hsign (fun _ => exponent_step) hds, hend]

theorem run_exponent {part : Digits} {stack : List Bracket} {e s : Bytes}
    (hp : part = .zero ∨ part = .whole ∨ part = .fraction) (he : Exponent e) (hs : EndsNumber s) :
    run (.number part) stack (e ++ s) = resume stack s := by
  cases he with
  | none => exact run_number_end (by rcases hp with rfl | rfl | rfl <;> rfl) hs
  | digits hm hds =>
    have hmark : ∀ m : UInt8, m = 0x65 ∨ m = 0x45 →
        step (.number part) stack m = .goOn (.number .mark) stack := by
      rintro m (rfl | rfl) <;> rcases hp with rfl | rfl | rfl <;> rfl
    rw [List.cons_append, run_of_goOn (hmark _ hm), run_signed hds hs]

theorem run_fraction {part : Digits} {stack : List Bracket} {f s : Bytes}
    (hp : part = .zero ∨ part = .whole) (hf : Seq Fraction Exponent f) (hs : EndsNumber s) :
    run (.number part) stack (f ++ s) = resume stack s := by
  obtain ⟨_, e, hfr, he, rfl⟩ := hf
  cases hfr with
  | none => exact run_exponent (hp.imp_right .inl) he hs
  | digits hds =>
    have hpoint : step (.number part) stack 0x2E = .goOn (.number .point) stack := by
      rcases hp with rfl | rfl <;> rfl
    have hfirst : ∀ b, Bytes.isDigit b = true → Digits.point.step b = .goOn .fraction := by
      intro b hb
      simp [Digits.step, hb]
    rw [List.cons_append, List.cons_append, run_of_goOn hpoint, List.append_assoc,
      run_someDigits hfirst (fun _ => fraction_step) hds]
    exact run_exponent (.inr (.inr rfl)) he hs

/-- From a control that reads the first digit of a number as the minus sign does. -/
theorem run_whole {control : Control} {stack : List Bracket} {n s : Bytes}
    (hzero : step control stack 0x30 = .goOn (.number .zero) stack)
    (hdigit : ∀ b, Bytes.isDigit b = true → b ≠ 0x30 →
      step control stack b = .goOn (.number .whole) stack)
    (hn : Seq Whole (Seq Fraction Exponent) n) (hs : EndsNumber s) :
    run control stack (n ++ s) = resume stack s := by
  obtain ⟨_, f, hw, hf, rfl⟩ := hn
  cases hw with
  | zero =>
    rw [List.append_assoc, List.singleton_append, run_of_goOn hzero]
    exact run_fraction (.inl rfl) hf hs
  | digits hb hne hds =>
    rw [List.append_assoc, List.cons_append, run_of_goOn (hdigit _ hb hne),
      run_digits (fun _ => whole_step) hds]
    exact run_fraction (.inr rfl) hf hs

theorem step_digit {stack : List Bracket} {b : UInt8} (h : Bytes.isDigit b = true)
    (hne : b ≠ 0x30) : step .value stack b = .goOn (.number .whole) stack := by
  have hc (c : UInt8) (hc : Bytes.isDigit c = false) : b ≠ c := isDigit_ne h hc
  have hs : Bytes.isSpace b = false := by
    simp [Bytes.isSpace, hc 0x20 rfl, hc 0x09 rfl, hc 0x0A rfl, hc 0x0D rfl]
  simp [step, openValue, hs, h, hne, hc 0x22 rfl, hc 0x7B rfl, hc 0x5B rfl, hc 0x2D rfl]

theorem run_number {stack : List Bracket} {n s : Bytes} (hn : Number n) (hs : EndsNumber s) :
    run .value stack (n ++ s) = resume stack s := by
  cases hn with
  | positive hn => exact run_whole rfl (fun _ => step_digit) hn hs
  | negative hn =>
    have hminus : step .value stack 0x2D = .goOn (.number .minus) stack := rfl
    rw [List.cons_append, run_of_goOn hminus]
    refine run_whole rfl (fun b hb hne => ?_) hn hs
    simp [step, Digits.step, hb, hne]

/-! ## Strings -/

theorem isSome_hexValue? {b : UInt8} (h : IsHexDigit b) : (Bytes.hexValue? b).isSome = true := by
  unfold Bytes.hexValue?
  rcases h with h | h | h
  · simp [h]
  · split
    · rfl
    · simp [h]
  · split
    · rfl
    · split
      · rfl
      · simp [h]

theorem step_hex {role : Role} {stack : List Bracket} {b : UInt8} (h : IsHexDigit b) (n : Nat) :
    step (.hex role (n + 1) true) stack b = .goOn (.hex role n true) stack := by
  simp [step, isSome_hexValue? h]

theorem exists_of_length_eq_four {h : Bytes} (hl : h.length = 4) :
    ∃ a b c d, h = [a, b, c, d] :=
  match h, hl with
  | [a, b, c, d], _ => ⟨a, b, c, d, rfl⟩

theorem run_escape {role : Role} {stack : List Bracket} {e s : Bytes} (h : Escape e) :
    run (.escape role) stack (e ++ s) = run (.string role) stack s := by
  cases h with
  | simple hb =>
    have hs : step (.escape role) stack _ = .goOn (.string role) stack :=
      if_pos (by simpa [isSimpleEscape, or_assoc] using hb)
    rw [List.singleton_append, run_of_goOn hs]
  | @code h hl hh =>
    have hu : step (.escape role) stack 0x75 = .goOn (.hex role 3 true) stack := rfl
    obtain ⟨a, b, c, d, rfl⟩ := exists_of_length_eq_four hl
    simp only [List.forall_mem_cons] at hh
    obtain ⟨ha, hb, hc, hd, -⟩ := hh
    have hlast : step (.hex role 0 true) stack d = .goOn (.string role) stack := by
      simp [step, isSome_hexValue? hd]
    simp only [List.cons_append, List.nil_append]
    rw [run_of_goOn hu, run_of_goOn (step_hex ha 2), run_of_goOn (step_hex hb 1),
      run_of_goOn (step_hex hc 0), run_of_goOn hlast]

theorem run_inner {role : Role} {stack : List Bracket} {p s : Bytes} (h : Inner p) :
    run (.string role) stack (p ++ s) = run (.string role) stack s := by
  induction h with
  | nil => rfl
  | @plain b p hc hq hb _ ih =>
    have hs : step (.string role) stack b = .goOn (.string role) stack := by
      simp [step, hq, hb, UInt8.not_lt.2 hc]
    rw [List.cons_append, run_of_goOn hs, ih]
  | escape he _ ih =>
    have hs : step (.string role) stack 0x5C = .goOn (.escape role) stack := rfl
    rw [List.cons_append, run_of_goOn hs, List.append_assoc, run_escape he, ih]

/-! ## Values -/

/-- The first byte of a value is no space and closes no list. -/
theorem exists_cons_of_isValue {v : Bytes} (h : IsValue v) :
    ∃ b t, v = b :: t ∧ Bytes.isSpace b = false ∧ b ≠ 0x5D := by
  cases h with
  | null | true | false => exact ⟨_, _, rfl, rfl, by decide⟩
  | string | emptyList | list | emptyObject | object => exact ⟨_, _, rfl, rfl, by decide⟩
  | number hn =>
    cases hn with
    | negative => exact ⟨_, _, rfl, rfl, by decide⟩
    | positive hn =>
      obtain ⟨_, f, hw, _, rfl⟩ := hn
      cases hw with
      | zero => exact ⟨_, _, rfl, rfl, by decide⟩
      | @digits b s hb =>
        exact ⟨b, s ++ f, rfl, isSpace_of_isDigit hb, isDigit_ne (c := 0x5D) hb rfl⟩

/-- What the machine makes of a part of the grammar in its place. -/
def Reads : Symbol → Bytes → Prop
  | .value, v => ∀ stack s, EndsNumber s → run .value stack (v ++ s) = resume stack s
  | .text, t => ∀ k outer s, EndsNumber s →
    run .value (k :: outer) (t ++ s) = run .after (k :: outer) s
  | .items, t => ∀ outer s,
    run .value (.list :: outer) (t ++ Bracket.list.closer :: s) = resume outer s
  | .members, t => ∀ outer s,
    run .key (.object :: outer) (t ++ Bracket.object.closer :: s) = resume outer s

theorem step_space (k : Bracket) (outer : List Bracket) {b : UInt8}
    (hb : Bytes.isSpace b = true) :
    step .after (k :: outer) b = .goOn .after (k :: outer) := by
  cases k <;> simp [step, behind, hb]

theorem endsNumber_closer (k : Bracket) (s : Bytes) : EndsNumber (k.closer :: s) := by
  cases k <;> exact ⟨rfl, by decide, by decide, by decide⟩

theorem endsNumber_comma (s : Bytes) : EndsNumber (0x2C :: s) :=
  ⟨rfl, by decide, by decide, by decide⟩

/-- Spaces do not go on with a number. -/
theorem endsNumber_spaces {a s : Bytes} (ha : Spaces a) (hs : EndsNumber s) :
    EndsNumber (a ++ s) := by
  cases a with
  | nil => exact hs
  | cons b a =>
    have hb : Bytes.isSpace b = true := ha b List.mem_cons_self
    have hb' : b = 0x20 ∨ b = 0x09 ∨ b = 0x0A ∨ b = 0x0D := by
      simpa [Bytes.isSpace, or_assoc] using hb
    rcases hb' with rfl | rfl | rfl | rfl <;> exact ⟨rfl, by decide, by decide, by decide⟩

theorem step_closer (k : Bracket) (outer : List Bracket) :
    step .after (k :: outer) k.closer = close outer := by
  cases k <;> rfl

theorem run_afterSpaces {k : Bracket} {outer : List Bracket} {a s : Bytes} (ha : Spaces a) :
    run .after (k :: outer) (a ++ s) = run .after (k :: outer) s :=
  run_spaces (fun _ => step_space k outer) ha

theorem run_valueSpaces {stack : List Bracket} {a s : Bytes} (ha : Spaces a) :
    run .value stack (a ++ s) = run .value stack s :=
  run_spaces (fun b hb => by simp [step, hb]) ha

theorem run_listStartSpaces {stack : List Bracket} {a s : Bytes} (ha : Spaces a) :
    run .listStart stack (a ++ s) = run .listStart stack s :=
  run_spaces (fun b hb => by simp [step, hb]) ha

theorem run_objectStartSpaces {stack : List Bracket} {a s : Bytes} (ha : Spaces a) :
    run .objectStart stack (a ++ s) = run .objectStart stack s :=
  run_spaces (fun b hb => by simp [step, hb]) ha

/-- An opened list begins with its first item as behind a comma. -/
theorem run_listStart {stack : List Bracket} {t s : Bytes} (ht : Derives .items t) :
    run .listStart stack (t ++ s) = run .value stack (t ++ s) := by
  have first {t : Bytes} (ht : Derives .text t) (s : Bytes) :
      run .listStart stack (t ++ s) = run .value stack (t ++ s) := by
    cases ht with
    | text ha hv =>
      obtain ⟨b, v, rfl, hb, hne⟩ := exists_cons_of_isValue hv
      rw [List.append_assoc, run_listStartSpaces ha, run_valueSpaces ha]
      have hs : step .listStart stack b = step .value stack b := by simp [step, hb, hne]
      simp only [List.cons_append, run, hs]
  cases ht with
  | item ht => exact first ht s
  | items ht => rw [List.append_assoc]; exact first ht _

/-- A key up to its colon. -/
theorem run_key {outer : List Bracket} {a k b s : Bytes} (ha : Spaces a) (hk : Inner k)
    (hb : Spaces b) :
    run .key (.object :: outer) (a ++ 0x22 :: (k ++ 0x22 :: (b ++ 0x3A :: s))) =
      run .value (.object :: outer) s := by
  have ho : step .key (.object :: outer) 0x22 = .goOn (.string .key) (.object :: outer) := rfl
  have hq : step (.string .key) (.object :: outer) 0x22 = .goOn .colon (.object :: outer) := rfl
  have hc : step .colon (.object :: outer) 0x3A = .goOn .value (.object :: outer) := rfl
  have hspace {control : Control} (h : control = .key ∨ control = .colon) :
      ∀ b, Bytes.isSpace b = true →
        step control (.object :: outer) b = .goOn control (.object :: outer) := by
    intro b hb
    rcases h with rfl | rfl <;> simp [step, hb]
  rw [run_spaces (hspace (.inl rfl)) ha, run_of_goOn ho, run_inner hk, run_of_goOn hq,
    run_spaces (hspace (.inr rfl)) hb, run_of_goOn hc]

/-- An opened object begins with its first member as behind a comma. -/
theorem run_objectStart {stack : List Bracket} {m s : Bytes} (hm : Derives .members m) :
    run .objectStart stack (m ++ s) = run .key stack (m ++ s) := by
  have first {a : Bytes} (ha : Spaces a) (s : Bytes) :
      run .objectStart stack (a ++ 0x22 :: s) = run .key stack (a ++ 0x22 :: s) := by
    have hkey : run .key stack (a ++ 0x22 :: s) = run .key stack (0x22 :: s) :=
      run_spaces (fun b hb => by simp [step, hb]) ha
    rw [run_objectStartSpaces ha, hkey]
    rfl
  cases hm with
  | member ha => simpa using first ha _
  | members ha => simpa using first ha _

theorem reads_of_derives {symbol : Symbol} {s : Bytes} (h : Derives symbol s) :
    Reads symbol s := by
  induction h with
  | null | true | false => intro stack s _; cases stack <;> rfl
  | number hn => intro stack s hs; exact run_number hn hs
  | @string p hp =>
    intro stack s _
    have ho : step .value stack 0x22 = .goOn (.string .value) stack := rfl
    have hq : step (.string .value) stack 0x22 = close stack := rfl
    rw [List.cons_append, run_of_goOn ho, List.append_assoc, run_inner hp, List.singleton_append,
      run_of_close hq]
  | emptyList ha =>
    intro stack s _
    have ho : step .value stack 0x5B = .goOn .listStart (.list :: stack) := rfl
    have hc : step .listStart (.list :: stack) 0x5D = close stack := rfl
    rw [List.cons_append, run_of_goOn ho, List.append_assoc, run_listStartSpaces ha,
      List.singleton_append, run_of_close hc]
  | list ht ih =>
    intro stack s _
    have ho : step .value stack 0x5B = .goOn .listStart (.list :: stack) := rfl
    rw [List.cons_append, run_of_goOn ho, List.append_assoc, run_listStart ht]
    exact ih stack s
  | emptyObject ha =>
    intro stack s _
    have ho : step .value stack 0x7B = .goOn .objectStart (.object :: stack) := rfl
    have hc : step .objectStart (.object :: stack) 0x7D = close stack := rfl
    rw [List.cons_append, run_of_goOn ho, List.append_assoc, run_objectStartSpaces ha,
      List.singleton_append, run_of_close hc]
  | object hm ih =>
    intro stack s _
    have ho : step .value stack 0x7B = .goOn .objectStart (.object :: stack) := rfl
    rw [List.cons_append, run_of_goOn ho, List.append_assoc, run_objectStart hm]
    exact ih stack s
  | text ha _ hb ih =>
    intro k outer s hs
    rw [List.append_assoc, run_valueSpaces ha, List.append_assoc,
      ih _ _ (endsNumber_spaces hb hs)]
    exact run_afterSpaces hb
  | item _ ih =>
    intro outer s
    rw [ih _ _ _ (endsNumber_closer .list s), run_of_close (step_closer .list outer)]
  | items _ _ ih ih' =>
    intro outer s
    have hc : step .after (.list :: outer) 0x2C = .goOn .value (.list :: outer) := rfl
    rw [List.append_assoc, List.cons_append, ih _ _ _ (endsNumber_comma _), run_of_goOn hc, ih']
  | member ha hk hb _ ih =>
    intro outer s
    simp only [List.append_assoc, List.cons_append]
    rw [run_key ha hk hb, ih _ _ _ (endsNumber_closer .object s),
      run_of_close (step_closer .object outer)]
  | members ha hk hb _ _ ih ih' =>
    intro outer s
    have hc : step .after (.object :: outer) 0x2C = .goOn .key (.object :: outer) := rfl
    simp only [List.append_assoc, List.cons_append]
    rw [run_key ha hk hb, ih _ _ _ (endsNumber_comma _), run_of_goOn hc, ih']

/-- Behind a value the machine stops, unless a number could go on. -/
theorem run_isValue {v s : Bytes} (hv : IsValue v) (hs : EndsNumber s) :
    run .value [] (v ++ s) = .ok s :=
  reads_of_derives hv [] s hs

/-- The machine stops at the end of just the values with spaces in front. -/
theorem run_eq_ok_nil_iff {s : Bytes} :
    run .value [] s = .ok [] ↔ ∃ a v, Spaces a ∧ IsValue v ∧ s = a ++ v := by
  constructor
  · intro h
    obtain ⟨a, _, ha, ⟨v, _, hv, rfl, rfl⟩, rfl⟩ := lang_of_run h
    exact ⟨a, v, ha, hv, by simp⟩
  · rintro ⟨a, v, ha, hv, rfl⟩
    rw [run_valueSpaces ha]
    simpa using run_isValue hv (s := []) trivial

end JsonCabinet.Json.Scan
