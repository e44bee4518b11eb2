import JsonCabinet.Bytes

/-!
# The order of names

Names are ordered by their UTF-8 bytes, as words in a dictionary are by their letters: the first
byte that differs decides, and the beginning of a word comes before the word. Main statement: this
is a strict total order (`precedes_irrefl`, `precedes_trans`, `precedes_or_eq_or_precedes`).
Names are compared place by place where they lie, which is the same (`precedes_eq`).
-/

namespace JsonCabinet

namespace Bytes

def precedes : Bytes → Bytes → Bool
  | _, [] => false
  | [], _ :: _ => true
  | a :: s, b :: t => if a = b then precedes s t else decide (a.toNat < b.toNat)

theorem precedes_irrefl (s : Bytes) : precedes s s = false := by
  induction s with
  | nil => rfl
  | cons a s ih => rw [precedes, if_pos rfl, ih]

theorem precedes_cons {a b : UInt8} {s t : Bytes} :
    precedes (a :: s) (b :: t) = true ↔ a.toNat < b.toNat ∨ a = b ∧ precedes s t = true := by
  rw [precedes]
  split
  · next h => simp [h]
  · next h => simp [h]

theorem precedes_trans {s t u : Bytes} (h : precedes s t = true) (h' : precedes t u = true) :
    precedes s u = true := by
  induction s generalizing t u with
  | nil =>
    cases u with
    | nil => cases t <;> cases h'
    | cons c u => rfl
  | cons a s ih =>
    cases t with
    | nil => cases h
    | cons b t =>
      cases u with
      | nil => cases h'
      | cons c u =>
        rw [precedes_cons] at h h' ⊢
        rcases h with h | ⟨rfl, h⟩
        · rcases h' with h' | ⟨rfl, _⟩
          · exact .inl (Nat.lt_trans h h')
          · exact .inl h
        · rcases h' with h' | ⟨rfl, h'⟩
          · exact .inl h'
          · exact .inr ⟨rfl, ih h h'⟩

theorem precedes_or_eq_or_precedes (s t : Bytes) :
    precedes s t = true ∨ s = t ∨ precedes t s = true := by
  induction s generalizing t with
  | nil =>
    cases t with
    | nil => exact .inr (.inl rfl)
    | cons b t => exact .inl rfl
  | cons a s ih =>
    cases t with
    | nil => exact .inr (.inr rfl)
    | cons b t =>
      rw [precedes_cons, precedes_cons]
      by_cases hab : a = b
      · subst hab
        rcases ih t with h | rfl | h
        · exact .inl (.inr ⟨rfl, h⟩)
        · exact .inr (.inl rfl)
        · exact .inr (.inr (.inr ⟨rfl, h⟩))
      · have : a.toNat ≠ b.toNat := fun h => hab (UInt8.toNat_inj.1 h)
        rcases Nat.lt_or_gt_of_ne this with h | h
        · exact .inl (.inl h)
        · exact .inr (.inr (.inl h))

/-- The same order on arrays of bytes, from one place on and as many places far. -/
def precedesFrom (s t : ByteArray) (i : Nat) : Nat → Bool
  | 0 => false
  | n + 1 =>
    if ht : i < t.size then
      if hs : i < s.size then
        if s[i] = t[i] then precedesFrom s t (i + 1) n else s[i] < t[i]
      else true
    else false

theorem precedesFrom_eq (s t : ByteArray) {i n : Nat} (h : t.size ≤ i + n) :
    precedesFrom s t i n = precedes (s.data.toList.drop i) (t.data.toList.drop i) := by
  induction n generalizing i with
  | zero =>
    rw [List.drop_eq_nil_of_le (by simpa using h : t.data.toList.length ≤ i)]
    simp [precedes, precedesFrom]
  | succ n ih =>
    rw [precedesFrom]
    split
    · next ht =>
      rw [List.drop_eq_getElem_cons (by simpa using ht : i < t.data.toList.length)]
      split
      · next hs =>
        rw [List.drop_eq_getElem_cons (by simpa using hs : i < s.data.toList.length), precedes,
          ih (by omega)]
        rfl
      · next hs =>
        rw [List.drop_eq_nil_of_le (by simpa using hs : s.data.toList.length ≤ i)]
        rfl
    · next ht =>
      rw [List.drop_eq_nil_of_le (by simpa using ht : t.data.toList.length ≤ i)]
      simp [precedes]

end Bytes

namespace Text

/-- The first name comes before the second. -/
def precedes (s t : String) : Bool :=
  Bytes.precedesFrom s.toByteArray t.toByteArray 0 t.toByteArray.size

theorem precedes_eq (s t : String) :
    precedes s t = (Bytes.ofString s).precedes (Bytes.ofString t) :=
  Bytes.precedesFrom_eq s.toByteArray t.toByteArray (by omega)

theorem precedes_irrefl (s : String) : ¬precedes s s = true := by
  simp [precedes_eq, Bytes.precedes_irrefl]

theorem precedes_trans {s t u : String} (h : precedes s t = true) (h' : precedes t u = true) :
    precedes s u = true := by
  rw [precedes_eq] at h h' ⊢
  exact Bytes.precedes_trans h h'

theorem precedes_or_eq_or_precedes (s t : String) :
    precedes s t = true ∨ s = t ∨ precedes t s = true := by
  rw [precedes_eq, precedes_eq]
  rcases Bytes.precedes_or_eq_or_precedes (Bytes.ofString s) (Bytes.ofString t) with h | h | h
  · exact .inl h
  · exact .inr (.inl (Bytes.ofString_injective h))
  · exact .inr (.inr h)

theorem precedes_of_not {s t : String} (h : ¬precedes s t = true) (h' : s ≠ t) :
    precedes t s = true :=
  ((precedes_or_eq_or_precedes s t).resolve_left h).resolve_left h'

end Text

end JsonCabinet
