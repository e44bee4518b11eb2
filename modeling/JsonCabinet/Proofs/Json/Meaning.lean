import JsonCabinet.Json.Typed
import JsonCabinet.Proofs.Contents
import JsonCabinet.Proofs.Json.Numerals
import JsonCabinet.Proofs.Json.Settling
import JsonCabinet.Proofs.Json.Surrogates

/-!
# What a text stands for

The tree of a text stands for a value, in which of the members of an object with one key the last
one counts (`Tree.Denotes`). If the numbers are integers of 64 bits and no key is reserved, there is
such a value unless a surrogate is unpaired (`Tree.exists_denotes_iff`), and a reader of values
makes it of the text, unless the text nests too deep (`Reader.settles_value`).
-/

namespace JsonCabinet.Json.Tree

open Grammar Scan Reader

/-! ## Meaning -/

/-- What the tree stands for. An object has its keys in order, and of the members with one key the
last one counts. -/
inductive Denotes : Tree → Value → Prop
  | null : Denotes .null .null
  | boolean {b : Bool} : Denotes (.boolean b) (.boolean b)
  | number {s : Bytes} {n : Int} (h : Text.Decimal s n) : Denotes (.number s) (.number (.integer n))
  | string {q : Bytes} {text : String} (h : Key text q) : Denotes (.string q) (.string text)
  | list {items : List Tree} {values : List Value} (h : List.Forall₂ Denotes items values) :
    Denotes (.list items) (.array values)
  | object {members : List (Bytes × Tree)} {read entries : List (String × Value)}
    (h : List.Forall₂ (Member Denotes) members read)
    (hsorted : entries.Pairwise fun a b => Text.precedes a.1 b.1)
    (hlast : ∀ k, entries.lookup k = Table.last? k read) :
    Denotes (.object members) (.object entries)

/-- Numbers are integers, and no key is the reserved one. -/
def IsPlain : Tree → Prop
  | .number s => IsInteger s
  | .object members => ∀ m ∈ members, ¬Key reservedKey m.1
  | _ => True

section Denotes

variable {v : Value}

theorem denotes_null_iff : Denotes .null v ↔ v = .null :=
  ⟨fun | .null => rfl, fun h => h ▸ .null⟩

theorem denotes_boolean_iff {b : Bool} : Denotes (.boolean b) v ↔ v = .boolean b :=
  ⟨fun | .boolean => rfl, fun h => h ▸ .boolean⟩

theorem denotes_number_iff {s : Bytes} :
    Denotes (.number s) v ↔ ∃ n, Text.Decimal s n ∧ v = .number (.integer n) :=
  ⟨fun | .number h => ⟨_, h, rfl⟩, fun ⟨_, h, hv⟩ => hv ▸ .number h⟩

theorem denotes_string_iff {q : Bytes} :
    Denotes (.string q) v ↔ ∃ text, Key text q ∧ v = .string text :=
  ⟨fun | .string h => ⟨_, h, rfl⟩, fun ⟨_, h, hv⟩ => hv ▸ .string h⟩

theorem denotes_list_iff {items : List Tree} :
    Denotes (.list items) v ↔ ∃ values, List.Forall₂ Denotes items values ∧ v = .array values :=
  ⟨fun | .list h => ⟨_, h, rfl⟩, fun ⟨_, h, hv⟩ => hv ▸ .list h⟩

/-- An object stands for the table of its members. -/
theorem denotes_object_iff {members : List (Bytes × Tree)} :
    Denotes (.object members) v ↔
      ∃ read, List.Forall₂ (Member Denotes) members read ∧
        v = .object (Table.ofList read).entries := by
  constructor
  · rintro (_ | _ | _ | _ | _ | @⟨_, read, entries, h, hsorted, hlast⟩)
    have htable : Table.mk entries hsorted = Table.ofList read :=
      Table.eq_of_get? fun k => (hlast k).trans (Table.get?_ofList read k).symm
    exact ⟨read, h, by rw [← htable]⟩
  · rintro ⟨read, h, rfl⟩
    exact .object h (Table.ofList read).sorted fun k => Table.get?_ofList read k

end Denotes

/-! ### Down to a depth -/

/-- The tree nests at most this deep, and it stands for the value. -/
def Within (n : Nat) (t : Tree) (v : Value) : Prop := t.depth ≤ n ∧ t.Denotes v

section Within

variable {n : Nat} {v : Value}

/-- What is no list and no object nests at any depth. -/
theorem within_iff_of_flat {t : Tree} (ht : t.depth = 0) : Within n t v ↔ t.Denotes v := by
  rw [Within, ht]
  exact and_iff_right (Nat.zero_le n)

theorem within_list_iff {items : List Tree} : Within (n + 1) (.list items) v ↔
    ∃ values, List.Forall₂ (Within n) items values ∧ v = .array values := by
  have hsplit (values : List Value) : List.Forall₂ (Within n) items values ↔
      (∀ t ∈ items, t.depth ≤ n) ∧ List.Forall₂ Denotes items values :=
    List.forall₂_and_left items values
  simp only [hsplit, Within, depth_list_le_iff, denotes_list_iff, and_assoc, exists_and_left]

theorem member_within_iff {m : Bytes × Tree} {x : String × Value} :
    Member (Within n) m x ↔ m.2.depth ≤ n ∧ Member Denotes m x := by
  constructor
  · rintro ⟨hk, hd, hv⟩
    exact ⟨hd, .mk hk hv⟩
  · rintro ⟨hd, hk, hv⟩
    exact .mk hk ⟨hd, hv⟩

theorem within_object_iff {members : List (Bytes × Tree)} : Within (n + 1) (.object members) v ↔
    ∃ read, List.Forall₂ (Member (Within n)) members read ∧
      v = .object (Table.ofList read).entries := by
  have hsplit (read : List (String × Value)) : List.Forall₂ (Member (Within n)) members read ↔
      (∀ m ∈ members, m.2.depth ≤ n) ∧ List.Forall₂ (Member Denotes) members read := by
    have hmember : Member (Within n) = fun m x => m.2.depth ≤ n ∧ Member Denotes m x :=
      funext fun _ => funext fun _ => propext member_within_iff
    rw [hmember]
    exact List.forall₂_and_left members read
  simp only [hsplit, Within, depth_object_le_iff, denotes_object_iff, and_assoc, exists_and_left]

end Within

/-! ## Which trees stand for something -/

/-- No surrogate in the string or in a key is unpaired. -/
def IsPaired : Tree → Prop
  | .string q => ¬Unpaired q
  | .object members => ∀ m ∈ members, ¬Unpaired m.1
  | _ => True

theorem exists_key_iff {q : Bytes} (hq : Inner q) (hutf : Bytes.IsUtf8 q) :
    (∃ text, Key text q) ↔ ¬Unpaired q := by
  rw [← exists_spelled_iff hq]
  constructor
  · rintro ⟨text, hk⟩
    exact ⟨_, hk⟩
  · rintro ⟨n, hn⟩
    obtain ⟨text, rfl⟩ : Bytes.IsUtf8 n := (hn.isUtf8_iff []).2 hutf
    exact ⟨text, hn⟩

theorem exists_denotes_list_iff {items : List Tree} :
    (∃ v, Denotes (.list items) v) ↔ ∀ t ∈ items, ∃ v, t.Denotes v := by
  rw [← exists_forall₂_iff]
  simp only [denotes_list_iff]
  exact ⟨fun ⟨_, values, h, _⟩ => ⟨values, h⟩, fun ⟨values, h⟩ => ⟨_, values, h, rfl⟩⟩

theorem exists_denotes_object_iff {members : List (Bytes × Tree)} :
    (∃ v, Denotes (.object members) v) ↔
      ∀ m ∈ members, (∃ text, Key text m.1) ∧ ∃ v, m.2.Denotes v := by
  have hmember (m : Bytes × Tree) :
      (∃ x, Member Denotes m x) ↔ (∃ text, Key text m.1) ∧ ∃ v, m.2.Denotes v := by
    constructor
    · rintro ⟨_, hk, hv⟩
      exact ⟨⟨_, hk⟩, _, hv⟩
    · rintro ⟨⟨text, hk⟩, v, hv⟩
      exact ⟨(text, v), .mk hk hv⟩
  simp only [← hmember, ← exists_forall₂_iff, denotes_object_iff]
  exact ⟨fun ⟨_, l, h, _⟩ => ⟨l, h⟩, fun ⟨l, h⟩ => ⟨_, l, h, rfl⟩⟩

/-- A tree stands for something unless a surrogate in it is unpaired. -/
theorem exists_denotes_iff {t : Tree} {w : Bytes} (hw : t.Written w) (ht : t.Throughout IsPlain)
    (hutf : t.Throughout InUtf8) : (∃ v, t.Denotes v) ↔ t.Throughout IsPaired := by
  induction t generalizing w with
  | null =>
    rw [Throughout]
    exact iff_of_true ⟨_, .null⟩ trivial
  | boolean b =>
    rw [Throughout]
    exact iff_of_true ⟨_, .boolean⟩ trivial
  | number s =>
    rw [Throughout] at ht ⊢
    obtain ⟨-, n, hn, -⟩ := ht
    exact iff_of_true ⟨_, .number hn⟩ trivial
  | string q =>
    rw [Throughout] at hutf ⊢
    cases hw with
    | string hq =>
      rw [IsPaired, ← exists_key_iff hq hutf]
      constructor
      · rintro ⟨_, hv⟩
        obtain ⟨text, hk, -⟩ := denotes_string_iff.1 hv
        exact ⟨text, hk⟩
      · rintro ⟨text, hk⟩
        exact ⟨_, .string hk⟩
  | list items ih =>
    rw [Throughout] at ht hutf ⊢
    cases hw with
    | list hs =>
      have hitems : ∀ t ∈ items, (∃ v, t.Denotes v) ↔ t.Throughout IsPaired :=
        hs.forall_mem fun t hmem v hv => ih t hmem hv (ht.2 t hmem) (hutf.2 t hmem)
      rw [exists_denotes_list_iff, forall₂_congr hitems]
      exact (and_iff_right trivial).symm
  | object members ih =>
    rw [Throughout] at ht hutf ⊢
    cases hw with
    | object hs =>
      have hkeys : ∀ m ∈ members, (∃ text, Key text m.1) ↔ ¬Unpaired m.1 :=
        hs.forall_mem fun m hmem q _ hk _ => exists_key_iff (hk.1 ▸ hk.2) (hutf.1 m hmem)
      have hvalues : ∀ m ∈ members, (∃ v, m.2.Denotes v) ↔ m.2.Throughout IsPaired :=
        hs.forall_mem fun m hmem _ v _ hv => ih m hmem hv (ht.2 m hmem) (hutf.2 m hmem)
      rw [exists_denotes_object_iff, IsPaired, ← forall₂_and]
      exact forall₂_congr fun m hm => and_congr (hkeys m hm) (hvalues m hm)

end JsonCabinet.Json.Tree

/-! ## Reading values -/

namespace JsonCabinet.Json.Reader

open Grammar Scan

section Value

variable {whole : Bytes → Except Malformed Value} {n : Nat} {a r s t w rest : Bytes} {b : UInt8}
  {v : Value} {P : Value → Prop}

theorem value_read_scalar (ha : Spaces a) (hb : Bytes.isSpace b = false) (hlist : b ≠ 0x5B)
    (hobject : b ≠ 0x7B) : (value whole n).read (a ++ b :: s) = readScalar (b :: s) := by
  have htrim : Bytes.trimStart (a ++ b :: s) = b :: s := by
    rw [trimStart_append ha, trimStart_cons hb]
  cases n with
  | zero => simp [value, htrim, hlist, hobject]
  | succ n => simp [value, htrim, hlist, hobject]

theorem value_read_list (ha : Spaces a) : (value whole (n + 1)).read (a ++ 0x5B :: s) =
    (listBody (value whole n) s).map fun (items, rest) => (.array items, rest) := by
  have htrim : Bytes.trimStart (a ++ 0x5B :: s) = 0x5B :: s := by
    rw [trimStart_append ha, trimStart_cons rfl]
  simp [value, htrim]

theorem value_read_object (ha : Spaces a) : (value whole (n + 1)).read (a ++ 0x7B :: s) =
    valueObject whole (value whole n) s := by
  have htrim : Bytes.trimStart (a ++ 0x7B :: s) = 0x7B :: s := by
    rw [trimStart_append ha, trimStart_cons rfl]
  simp [value, htrim]

/-- Where nothing may nest any more, lists and objects are refused. -/
theorem value_read_tooDeep (ha : Spaces a) (hb : b = 0x5B ∨ b = 0x7B) :
    (value whole 0).read (a ++ b :: s) = .error ⟨.tooDeep, s⟩ := by
  have htrim : Bytes.trimStart (a ++ b :: s) = b :: s := by
    rw [trimStart_append ha, trimStart_cons (by rcases hb with rfl | rfl <;> rfl)]
  rcases hb with rfl | rfl <;> simp [value, htrim]

/-- An object whose first key is not reserved is the table of its members. -/
theorem valueObject_eq {reader : Reader Value} (hfirst : ∀ r name rest,
    Bytes.trimStart s = 0x22 :: r → key r = .ok (name, rest) → name ≠ reservedKey) :
    valueObject whole reader s =
      (objectBody reader s).map fun p => (.object (Table.ofList p.1).entries, p.2) := by
  unfold valueObject
  split
  · next r htrim =>
    split
    · next fault hkey =>
      -- The object is refused for its first key, whichever way it is read.
      simp [objectBody, htrim, member, hkey, Except.map]
    · next name rest' hkey => exact if_neg (hfirst r name rest' htrim hkey)
  · rfl

theorem settles_scalar (hb : Bytes.isSpace b = false) (hlist : b ≠ 0x5B) (hobject : b ≠ 0x7B)
    (hread : ∀ s, EndsNumber s → Results (readScalar (b :: (t ++ s))) P s) :
    (value whole n).Settles (b :: t) P := by
  intro a s ha hs
  rw [List.cons_append, value_read_scalar ha hb hlist hobject]
  exact hread s hs

theorem settles_string {q : Bytes} (hq : Inner q) :
    (value whole n).Settles (0x22 :: (q ++ [0x22]))
      fun v => ∃ text, Key text q ∧ v = .string text := by
  refine settles_scalar rfl (by decide) (by decide) fun s _ => ?_
  rw [List.append_assoc]
  exact (Quoted.results_inner hq s).map Value.string

/-- A number that is an integer is read as that integer. -/
theorem settles_number (hs : Grammar.Number w) (hw : IsInteger w) : (value whole n).Settles w
    fun v => ∃ m, Text.Decimal w m ∧ v = .number (.integer m) := by
  obtain ⟨hzero, m, hm, hleast, hgreatest⟩ := hw
  obtain ⟨b, t, rfl, hb⟩ := exists_cons_of_number hs
  have hspace : Bytes.isSpace b = false := by
    rcases hb with rfl | hb
    · rfl
    · exact isSpace_of_isDigit hb
  have hne {c : UInt8} (hc : Bytes.isDigit c = false) (hc' : c ≠ 0x2D) : b ≠ c := by
    rcases hb with rfl | hb
    · exact hc'.symm
    · exact isDigit_ne hb hc
  have hnumber : (b == 0x2D || Bytes.isDigit b) = true := by simpa using hb
  refine settles_scalar hspace (hne rfl (by decide)) (hne rfl (by decide)) fun s hend => ?_
  obtain ⟨x, hx, hvalue⟩ := Numeral.read_integer hs hm hzero hleast hgreatest hend
  rw [List.cons_append] at hx
  have hread : readScalar (b :: (t ++ s)) = .ok (.number (.integer m), s) := by
    rw [readScalar, if_neg (by simpa using hne rfl (by decide)), if_pos hnumber]
    simp only [hx, hvalue, Except.map]
  rw [hread]
  refine (Results.ok _ s).congr fun v => ⟨fun hv => ⟨m, hm, hv⟩, ?_⟩
  rintro ⟨k, hk, rfl⟩
  rw [hm.unique hk]

theorem settles_word (hb : Bytes.isSpace b = false) (hlist : b ≠ 0x5B) (hobject : b ≠ 0x7B)
    (hread : ∀ s, readScalar (b :: (t ++ s)) = .ok (v, s)) :
    (value whole n).Settles (b :: t) fun x => x = v := by
  refine settles_scalar hb hlist hobject fun s _ => ?_
  rw [hread]
  exact .ok v s

/-! ### Values that nest -/

theorem settles_list {items : List Tree}
    (h : Items (Settled (value whole n) (Tree.Within n)) items w) :
    (value whole (n + 1)).Settles w (Tree.Within (n + 1) (.list items)) := by
  intro a s ha _
  obtain ⟨body, rfl⟩ : ∃ body, w = 0x5B :: body := by cases h <;> exact ⟨_, rfl⟩
  rw [List.cons_append, value_read_list ha]
  exact ((results_listBody h s).map Value.array).congr fun v => Tree.within_list_iff.symm

theorem settles_object {members : List (Bytes × Tree)} (hkeys : ∀ m ∈ members, ¬Key reservedKey m.1)
    (h : Object Tree.Between (Settled (value whole n) (Tree.Within n)) members w) :
    (value whole (n + 1)).Settles w (Tree.Within (n + 1) (.object members)) := by
  intro a s ha _
  obtain ⟨body, rfl⟩ : ∃ body, w = 0x7B :: body := by cases h <;> exact ⟨_, rfl⟩
  have hfirst : ∀ r name rest, Bytes.trimStart (body ++ s) = 0x22 :: r →
      key r = .ok (name, rest) → name ≠ reservedKey := by
    rintro r name rest htrim hkey rfl
    obtain ⟨m, hm, hk⟩ := exists_mem_of_key h htrim hkey
    exact hkeys m hm hk
  rw [List.cons_append, value_read_object ha, valueObject_eq hfirst]
  exact ((results_objectBody h s).map fun ms => Value.object (Table.ofList ms).entries).congr
    fun v => Tree.within_object_iff.symm

/-- Where nothing may nest any more, a list or an object is settled too. -/
theorem settles_nested {t : Tree} (hb : b = 0x5B ∨ b = 0x7B) (ht : 0 < t.depth) :
    (value whole 0).Settles (b :: w) (Tree.Within 0 t) := by
  intro a s ha _ v rest
  rw [List.cons_append, value_read_tooDeep ha hb]
  exact iff_of_false nofun fun ⟨⟨hd, _⟩, _⟩ => by omega

/-- Of a tree a reader of values makes what it stands for, unless it nests too deep. -/
theorem settles_value {t : Tree} (hw : t.Written w) (ht : t.Throughout Tree.IsPlain) (n : Nat) :
    (value whole n).Settles w (Tree.Within n t) := by
  -- The depth that is left goes down with the tree, and where it is used up nothing may nest.
  induction t generalizing w n with
  | null =>
    cases hw
    refine (settles_word (v := .null) rfl (by decide) (by decide) fun _ => rfl).congr fun v => ?_
    rw [Tree.within_iff_of_flat (by rw [Tree.depth]), Tree.denotes_null_iff]
  | boolean b =>
    have hflat (v : Value) : v = .boolean b ↔ Tree.Within n (.boolean b) v := by
      rw [Tree.within_iff_of_flat (by rw [Tree.depth]), Tree.denotes_boolean_iff]
    cases hw with
    | true => exact (settles_word rfl (by decide) (by decide) fun _ => rfl).congr hflat
    | false => exact (settles_word rfl (by decide) (by decide) fun _ => rfl).congr hflat
  | number s =>
    cases hw with
    | number hs =>
      rw [Tree.Throughout] at ht
      refine (settles_number hs ht).congr fun v => ?_
      rw [Tree.within_iff_of_flat (by rw [Tree.depth]), Tree.denotes_number_iff]
  | string q =>
    cases hw with
    | string hq =>
      refine (settles_string hq).congr fun v => ?_
      rw [Tree.within_iff_of_flat (by rw [Tree.depth]), Tree.denotes_string_iff]
  | list items ih =>
    cases hw with
    | list hs =>
      rw [Tree.Throughout] at ht
      obtain ⟨-, hitems⟩ := ht
      cases n with
      | zero =>
        have hdepth : 0 < (Tree.list items).depth := by simp [Tree.depth]
        cases hs <;> exact settles_nested (.inl rfl) hdepth
      | succ n =>
        exact settles_list (hs.mono fun t ht v hv => ⟨hv.isValue, ih t ht hv (hitems t ht) n⟩)
  | object members ih =>
    cases hw with
    | object hs =>
      rw [Tree.Throughout] at ht
      obtain ⟨hkeys, hmembers⟩ := ht
      cases n with
      | zero =>
        have hdepth : 0 < (Tree.object members).depth := by simp [Tree.depth]
        cases hs <;> exact settles_nested (.inr rfl) hdepth
      | succ n =>
        refine settles_object hkeys (hs.mono (fun _ _ _ hk => hk) fun m hm v hv => ?_)
        exact ⟨hv.isValue, ih m hm hv (hmembers m hm) n⟩

end Value

end JsonCabinet.Json.Reader
