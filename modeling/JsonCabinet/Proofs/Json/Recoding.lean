import JsonCabinet.Proofs.Json.Meaning
import JsonCabinet.Proofs.Json.Restoring

/-!
# Values written and read again

A value without floating-point numbers and without the reserved key is written as a tree that
stands for it and has the keys of its objects in order (`exists_renders`). What a plain tree stands
for is such a value (`fits_of_within`).
-/

namespace JsonCabinet.Json

open Grammar Reader

/-! ## Values that are given back -/

/-- Values of integers of 64 bits, without the reserved key, that nest at most this deep. The keys
of an object are in order, so each of them is there once. -/
inductive Value.Fits : Nat → Value → Prop
  | null {n : Nat} : Fits n .null
  | boolean {n : Nat} {b : Bool} : Fits n (.boolean b)
  | integer {n : Nat} {i : Int} (hleast : Word.leastSigned ≤ i) (hgreatest : i ≤ Word.greatest) :
    Fits n (.number (.integer i))
  | string {n : Nat} {text : String} : Fits n (.string text)
  | array {n : Nat} {items : List Value} (h : ∀ v ∈ items, Fits n v) : Fits (n + 1) (.array items)
  | object {n : Nat} {members : List (String × Value)}
    (hsorted : members.Pairwise fun a b => Text.precedes a.1 b.1)
    (hkeys : ∀ m ∈ members, m.1 ≠ reservedKey) (h : ∀ m ∈ members, Fits n m.2) :
    Fits (n + 1) (.object members)

/-! ## Keys -/

theorem Grammar.Key.unique {q : Bytes} {a b : String} (ha : Key a q) (hb : Key b q) : a = b := by
  have hread {name : String} (hk : Key name q) : Quoted.read (q ++ [0x22]) = .ok (name, []) :=
    (Quoted.results_inner ha.inner [] name []).2 ⟨hk, rfl⟩
  cases (hread ha).symm.trans (hread hb)
  rfl

theorem Grammar.Key.isUtf8 {q : Bytes} {text : String} (hk : Key text q) : Bytes.IsUtf8 q :=
  (hk.isUtf8_iff []).1 (Bytes.isUtf8_ofString text)

/-! ## Lists as they are written -/

section Lists

variable {α : Type} {V : α → Bytes → Prop} {write : α → Bytes} {l : List α}

theorem moreItems_written (h : ∀ x ∈ l, V x (write x)) :
    MoreItems V l ((l.map write).flatMap fun p => 0x2C :: p) := by
  induction l with
  | nil => exact .none spaces_nil
  | cons x l ih =>
    obtain ⟨hx, hrest⟩ := List.forall_mem_cons.1 h
    exact .cons spaces_nil spaces_nil hx (ih hrest)

/-- What is written for a list is a list with just these items. -/
theorem items_writeList (h : ∀ x ∈ l, V x (write x)) : Items V l (writeList (l.map write)) := by
  cases l with
  | nil => exact .empty spaces_nil
  | cons x l =>
    obtain ⟨hx, hrest⟩ := List.forall_mem_cons.1 h
    have hitems := Items.filled spaces_nil hx (moreItems_written hrest)
    simpa [writeList, commaSeparated] using hitems

end Lists

/-! ## What a plain tree stands for -/

namespace Tree

theorem mem_of_last? {α : Type} {k : String} {x : α} {l : List (String × α)}
    (h : Table.last? k l = some x) : (k, x) ∈ l :=
  List.mem_reverse.1 (Table.mem_of_lookup_eq_some h)

/-- What a plain tree stands for is given back. -/
theorem fits_of_within {t : Tree} {n : Nat} {v : Value} (ht : t.Throughout IsPlain)
    (h : t.Within n v) : v.Fits n := by
  induction t generalizing n v with
  | null =>
    cases h.2
    exact .null
  | boolean =>
    cases h.2
    exact .boolean
  | number s =>
    rw [Throughout] at ht
    obtain ⟨-, m, hm, hleast, hgreatest⟩ := ht
    obtain ⟨k, hk, rfl⟩ := denotes_number_iff.1 h.2
    obtain rfl := hm.unique hk
    exact .integer hleast hgreatest
  | string =>
    cases h.2
    exact .string
  | list items ih =>
    rw [Throughout] at ht
    cases n with
    | zero => exact absurd h.1 (by simp [depth])
    | succ n =>
      obtain ⟨values, hvalues, rfl⟩ := within_list_iff.1 h
      refine .array fun v hv => ?_
      obtain ⟨t, hmem, hv⟩ := exists_mem_of_forall₂_right hvalues v hv
      exact ih t hmem (ht.2 t hmem) hv
  | object members ih =>
    rw [Throughout] at ht
    cases n with
    | zero => exact absurd h.1 (by simp [depth])
    | succ n =>
      obtain ⟨read, hread, rfl⟩ := within_object_iff.1 h
      have hmember : ∀ x ∈ (Table.ofList read).entries, ∃ m ∈ members, Member (Within n) m x := by
        intro x hx
        have hlast : Table.last? x.1 read = some x.2 := by
          rw [← Table.get?_ofList]
          exact Table.mem_entries_iff.1 hx
        exact exists_mem_of_forall₂_right hread x (mem_of_last? hlast)
      refine .object (Table.ofList read).sorted (fun x hx heq => ?_) fun x hx => ?_
      · obtain ⟨m, hm, hk, -⟩ := hmember x hx
        exact ht.1 _ hm (heq ▸ hk)
      · obtain ⟨m, hm, -, hv⟩ := hmember x hx
        exact ih _ hm (ht.2 _ hm) hv

/-- What stands for something is in UTF-8. -/
theorem inUtf8_of_denotes {t : Tree} {v : Value} (h : t.Denotes v) : t.Throughout InUtf8 := by
  induction t generalizing v with
  | null | boolean | number => rw [Throughout]; trivial
  | string q =>
    obtain ⟨text, hk, -⟩ := denotes_string_iff.1 h
    rw [Throughout]
    exact hk.isUtf8
  | list items ih =>
    obtain ⟨values, hvalues, -⟩ := denotes_list_iff.1 h
    rw [Throughout]
    refine ⟨trivial, fun t ht => ?_⟩
    obtain ⟨v, -, hv⟩ := exists_mem_of_forall₂ hvalues t ht
    exact ih t ht hv
  | object members ih =>
    obtain ⟨read, hread, -⟩ := denotes_object_iff.1 h
    rw [Throughout]
    refine ⟨fun m hm => ?_, fun m hm => ?_⟩
    · obtain ⟨x, -, hk, -⟩ := exists_mem_of_forall₂ hread m hm
      exact hk.isUtf8
    · obtain ⟨x, -, -, hv⟩ := exists_mem_of_forall₂ hread m hm
      exact ih _ hm hv

/-! ## What is written for a value -/

/-- The keys of an object are in order. -/
def IsOrdered : Tree → Prop
  | .object members => members.Pairwise fun a b =>
    ∃ k l, Key k a.1 ∧ Key l b.1 ∧ Text.precedes k l
  | _ => True

/-- The tree is written for the value and can be read back. -/
structure Renders (n : Nat) (v : Value) (t : Tree) : Prop where
  written : t.Written v.write
  plain : t.Throughout IsPlain
  within : t.Within n v
  ordered : t.Throughout IsOrdered

section Renders

variable {n : Nat}

theorem renders_null : Renders n .null .null where
  written := .null
  plain := by rw [Throughout]; trivial
  within := (within_iff_of_flat (by rw [depth])).2 .null
  ordered := by rw [Throughout]; trivial

theorem renders_boolean (b : Bool) : Renders n (.boolean b) (.boolean b) where
  written := by
    cases b with
    | false => exact .false
    | true => exact .true
  plain := by rw [Throughout]; trivial
  within := (within_iff_of_flat (by rw [depth])).2 .boolean
  ordered := by rw [Throughout]; trivial

theorem renders_integer {i : Int} (hleast : Word.leastSigned ≤ i) (hgreatest : i ≤ Word.greatest) :
    Renders n (.number (.integer i)) (.number (Bytes.ofString (toString i))) where
  written := by
    have hnumber := Written.number (Text.number_toString i)
    simpa [Value.write, Value.writeOnto, Number.write] using hnumber
  plain := by
    rw [Throughout]
    exact isInteger_toString hleast hgreatest
  within := (within_iff_of_flat (by rw [depth])).2 (.number (Text.decimal_toString i))
  ordered := by rw [Throughout]; trivial

theorem renders_string (text : String) :
    Renders n (.string text) (.string (Quoted.escape (Bytes.ofString text))) := by
  have hk : Key text (Quoted.escape (Bytes.ofString text)) := Quoted.spelled_escape _
  refine ⟨?_, ?_, (within_iff_of_flat (by rw [depth])).2 (.string hk), ?_⟩
  · simpa [Value.write, Value.writeOnto, Quoted.write] using Written.string hk.inner
  · rw [Throughout]; trivial
  · rw [Throughout]; trivial

theorem renders_array {items : List Value} (h : ∀ v ∈ items, ∃ t, Renders n v t) :
    ∃ t, Renders (n + 1) (.array items) t := by
  obtain ⟨ts, hts, hrenders⟩ : ∃ ts, Items Written ts (writeList (items.map Value.write)) ∧
      List.Forall₂ (Renders n) items ts := by
    have hitems : Items (fun v s => s = v.write) items _ := items_writeList fun _ _ => rfl
    refine hitems.transfer fun v hv s hs => ?_
    obtain ⟨t, ht⟩ := h v hv
    exact ⟨t, hs ▸ ht.written, ht⟩
  have hmem := exists_mem_of_forall₂_right hrenders
  refine ⟨.list ts, ?_, ?_, ?_, ?_⟩
  · rw [Value.write_array]
    exact .list hts
  · rw [Throughout]
    refine ⟨trivial, fun t ht => ?_⟩
    obtain ⟨v, -, hv⟩ := hmem t ht
    exact hv.plain
  · exact within_list_iff.2 ⟨items, (hrenders.imp fun _ _ h => h.within).flip, rfl⟩
  · rw [Throughout]
    refine ⟨trivial, fun t ht => ?_⟩
    obtain ⟨v, -, hv⟩ := hmem t ht
    exact hv.ordered

theorem renders_object {members : List (String × Value)}
    (hsorted : members.Pairwise fun a b => Text.precedes a.1 b.1)
    (hkeys : ∀ m ∈ members, m.1 ≠ reservedKey) (h : ∀ m ∈ members, ∃ t, Renders n m.2 t) :
    ∃ t, Renders (n + 1) (.object members) t := by
  obtain ⟨ms, hms, hrenders⟩ : ∃ ms, Object Between Written ms
      (Layout.compact.writeObject (writtenMembers Value.write members)) ∧
      List.Forall₂ (fun m m' => Key m.1 m'.1 ∧ Renders n m.2 m'.2) members ms := by
    have hobject : Object Key (fun v s => s = v.write) members _ :=
      object_writeObject Layout.isBlank_compact fun m _ => rfl
    refine hobject.transfer fun m hm q s hk hs => ?_
    obtain ⟨t, ht⟩ := h m hm
    exact ⟨(q, t), ⟨rfl, hk.inner⟩, hs ▸ ht.written, hk, ht⟩
  have hmem := exists_mem_of_forall₂_right hrenders
  refine ⟨.object ms, ?_, ?_, ?_, ?_⟩
  · rw [Value.write_object]
    exact .object hms
  · rw [Throughout]
    refine ⟨fun m' hm' hk' => ?_, fun m' hm' => ?_⟩
    · obtain ⟨m, hm, hk, -⟩ := hmem m' hm'
      exact hkeys m hm (hk.unique hk')
    · obtain ⟨m, -, -, hm⟩ := hmem m' hm'
      exact hm.plain
  · refine within_object_iff.2 ⟨members, ?_, ?_⟩
    · exact (hrenders.imp fun m m' h => .mk h.1 h.2.within).flip
    · rw [Table.entries_ofList hsorted]
  · rw [Throughout]
    refine ⟨?_, fun m' hm' => ?_⟩
    · exact pairwise_of_forall₂ hrenders (fun _ _ _ _ h h' hlt => ⟨_, _, h.1, h'.1, hlt⟩) hsorted
    · obtain ⟨m, -, -, hm⟩ := hmem m' hm'
      exact hm.ordered

end Renders

/-- Such a value is written as a tree that stands for it. -/
theorem exists_renders {n : Nat} {v : Value} (h : v.Fits n) : ∃ t, Renders n v t := by
  induction h with
  | null => exact ⟨_, renders_null⟩
  | boolean => exact ⟨_, renders_boolean _⟩
  | integer hleast hgreatest => exact ⟨_, renders_integer hleast hgreatest⟩
  | string => exact ⟨_, renders_string _⟩
  | array _ ih => exact renders_array ih
  | object hsorted hkeys _ ih => exact renders_object hsorted hkeys ih

end Tree

end JsonCabinet.Json
