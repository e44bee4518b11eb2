import JsonCabinet.Proofs.Json.Objects

/-!
# Texts taken apart

Every value of the grammar is written from a tree, in which numbers, strings and keys stand as they
are written (`Tree.exists_written`), and what is written from a tree is a value
(`Tree.Written.isValue`), in UTF-8 just if its strings and keys are (`Tree.Written.isUtf8_iff`). So
what a text holds, and how deep it nests, can be said of its tree.
-/

namespace JsonCabinet.Json

/-! ## Lists side by side -/

section Lists

variable {α β : Type} {R : α → β → Prop} {as : List α} {bs : List β}

theorem exists_mem_of_forall₂ (h : List.Forall₂ R as bs) : ∀ a ∈ as, ∃ b ∈ bs, R a b := by
  induction h with
  | nil => exact fun _ ha => nomatch ha
  | cons hab _ ih =>
    refine List.forall_mem_cons.2 ⟨⟨_, List.mem_cons_self, hab⟩, fun a ha => ?_⟩
    obtain ⟨b, hb, hR⟩ := ih a ha
    exact ⟨b, List.mem_cons_of_mem _ hb, hR⟩

theorem exists_mem_of_forall₂_right (h : List.Forall₂ R as bs) : ∀ b ∈ bs, ∃ a ∈ as, R a b :=
  exists_mem_of_forall₂ h.flip

theorem exists_forall₂_iff : (∃ bs, List.Forall₂ R as bs) ↔ ∀ a ∈ as, ∃ b, R a b := by
  constructor
  · rintro ⟨bs, h⟩ a ha
    obtain ⟨b, -, hR⟩ := exists_mem_of_forall₂ h a ha
    exact ⟨b, hR⟩
  · intro h
    induction as with
    | nil => exact ⟨[], .nil⟩
    | cons a as ih =>
      obtain ⟨⟨b, hb⟩, hrest⟩ := List.forall_mem_cons.1 h
      obtain ⟨bs, hbs⟩ := ih hrest
      exact ⟨b :: bs, .cons hb hbs⟩

theorem pairwise_of_forall₂ {S : α → α → Prop} {T : β → β → Prop} (h : List.Forall₂ R as bs)
    (hR : ∀ a b a' b', R a b → R a' b' → S a a' → T b b') (has : as.Pairwise S) :
    bs.Pairwise T := by
  induction h with
  | nil => exact .nil
  | cons hab hrest ih =>
    obtain ⟨hfirst, hsorted⟩ := List.pairwise_cons.1 has
    refine List.pairwise_cons.2 ⟨fun b' hb' => ?_, ih hsorted⟩
    obtain ⟨a', ha', hab'⟩ := exists_mem_of_forall₂_right hrest b' hb'
    exact hR _ _ _ _ hab hab' (hfirst a' ha')

end Lists

namespace Grammar

/-! ## Lists in the grammar -/

section Items

variable {β β' : Type} (V : β → Bytes → Prop)

/-- Items with a comma in front of each, up to the closing bracket. -/
inductive MoreItems : List β → Bytes → Prop
  | none {d : Bytes} (hd : Spaces d) : MoreItems [] d
  | cons {y : β} {ys : List β} {d a v r : Bytes} (hd : Spaces d) (ha : Spaces a) (hv : V y v)
    (hr : MoreItems ys r) : MoreItems (y :: ys) (d ++ 0x2C :: (a ++ (v ++ r)))

/-- A list, with its items in order. -/
inductive Items : List β → Bytes → Prop
  | empty {a : Bytes} (ha : Spaces a) : Items [] (0x5B :: (a ++ [0x5D]))
  | filled {y : β} {ys : List β} {a v r : Bytes} (ha : Spaces a) (hv : V y v)
    (hr : MoreItems V ys r) : Items (y :: ys) (0x5B :: (a ++ (v ++ (r ++ [0x5D]))))

variable {V} {V' : β' → Bytes → Prop} {R : β → β' → Prop} {ys : List β} {a r s v : Bytes} {y : β}

theorem items_of_more (hV : ∀ y v, V y v → IsValue v) (ha : Spaces a) (hv : IsValue v)
    (hr : MoreItems V ys r) : Derives .items (a ++ (v ++ r)) := by
  induction hr generalizing a v with
  | none hd => exact .item (.text ha hv hd)
  | cons hd hb hw _ ih => simpa using Derives.items (.text ha hv hd) (ih hb (hV _ _ hw))

theorem Items.isValue (hV : ∀ y v, V y v → IsValue v) (h : Items V ys s) : IsValue s := by
  cases h with
  | empty ha => exact .emptyList ha
  | filled ha hv hr => simpa using Derives.list (items_of_more hV ha (hV _ _ hv) hr)

/-! ### The same text of other items -/

theorem MoreItems.transfer (h : MoreItems V ys r)
    (hR : ∀ y ∈ ys, ∀ v, V y v → ∃ y', V' y' v ∧ R y y') :
    ∃ ys', MoreItems V' ys' r ∧ List.Forall₂ R ys ys' := by
  induction h with
  | none hd => exact ⟨[], .none hd, .nil⟩
  | cons hd ha hv _ ih =>
    obtain ⟨hfirst, hrest⟩ := List.forall_mem_cons.1 hR
    obtain ⟨y', hv', hy⟩ := hfirst _ hv
    obtain ⟨ys', hr', hys⟩ := ih hrest
    exact ⟨y' :: ys', .cons hd ha hv' hr', .cons hy hys⟩

/-- What is written from items is also written from others, if this holds item by item. -/
theorem Items.transfer (h : Items V ys s) (hR : ∀ y ∈ ys, ∀ v, V y v → ∃ y', V' y' v ∧ R y y') :
    ∃ ys', Items V' ys' s ∧ List.Forall₂ R ys ys' := by
  cases h with
  | empty ha => exact ⟨[], .empty ha, .nil⟩
  | filled ha hv hr =>
    obtain ⟨hfirst, hrest⟩ := List.forall_mem_cons.1 hR
    obtain ⟨y', hv', hy⟩ := hfirst _ hv
    obtain ⟨ys', hr', hys⟩ := hr.transfer hrest
    exact ⟨y' :: ys', .filled ha hv' hr', .cons hy hys⟩

theorem Items.mono {W : β → Bytes → Prop} (h : Items V ys s)
    (hV : ∀ y ∈ ys, ∀ v, V y v → W y v) : Items W ys s := by
  obtain ⟨ys', h', heq⟩ := h.transfer fun y hy v hv => ⟨y, hV y hy v hv, rfl⟩
  rw [List.forall₂_eq_eq_eq] at heq
  exact heq ▸ h'

theorem Items.forall_mem {P : β → Prop} (h : Items V ys s) (hP : ∀ y ∈ ys, ∀ v, V y v → P y) :
    ∀ y ∈ ys, P y := by
  have hall : ∃ ys', Items V ys' s ∧ List.Forall₂ (fun y _ => P y) ys ys' :=
    h.transfer fun y hy v hv => ⟨y, hv, hP y hy v hv⟩
  obtain ⟨ys', -, hys⟩ := hall
  intro y hy
  obtain ⟨_, -, h⟩ := exists_mem_of_forall₂ hys y hy
  exact h

/-! ### Lists in UTF-8 -/

theorem MoreItems.isUtf8_append_iff (hr : MoreItems V ys r) (p : Bytes) :
    Bytes.IsUtf8 (p ++ r) ↔ Bytes.IsUtf8 p ∧ Bytes.IsUtf8 r := by
  cases hr with
  | none hd => exact hd.isUtf8_append_iff p
  | cons hd => exact hd.isUtf8_append_comma_iff p _

theorem more_items_wellFormed_iff :
    MoreItems (WellFormed V) ys r ↔ WellFormed (MoreItems V) ys r := by
  have hutf {d a v r : Bytes} {ys : List β} (hd : Spaces d) (ha : Spaces a)
      (hr : MoreItems V ys r) : Bytes.IsUtf8 (d ++ 0x2C :: (a ++ (v ++ r))) ↔
        Bytes.IsUtf8 v ∧ Bytes.IsUtf8 r := by
    rw [Bytes.isUtf8_append_cons (by decide), ha.isUtf8.append_iff, hr.isUtf8_append_iff,
      and_iff_right hd.isUtf8]
  constructor
  · intro hr
    induction hr with
    | none hd => exact ⟨.none hd, hd.isUtf8⟩
    | cons hd ha hv _ ih => exact ⟨.cons hd ha hv.1 ih.1, (hutf hd ha ih.1).2 ⟨hv.2, ih.2⟩⟩
  · rintro ⟨hr, hs⟩
    induction hr with
    | none hd => exact .none hd
    | cons hd ha hv hr ih =>
      obtain ⟨hvalue, hrest⟩ := (hutf hd ha hr).1 hs
      exact .cons hd ha ⟨hv, hvalue⟩ (ih hrest)

/-- A list is well-formed UTF-8 just if its items are. -/
theorem items_wellFormed_iff : Items (WellFormed V) ys s ↔ WellFormed (Items V) ys s := by
  have hclose {t : Bytes} : Bytes.IsUtf8 (0x5B :: (t ++ [0x5D])) ↔ Bytes.IsUtf8 t := by
    rw [Bytes.isUtf8_cons (by decide), Bytes.isUtf8_append_cons (by decide),
      and_iff_left Bytes.isUtf8_nil]
  have hfilled {a v r : Bytes} {ys : List β} (ha : Spaces a) (hr : MoreItems V ys r) :
      Bytes.IsUtf8 (0x5B :: (a ++ (v ++ (r ++ [0x5D])))) ↔ Bytes.IsUtf8 v ∧ Bytes.IsUtf8 r := by
    rw [← List.append_assoc v, ← List.append_assoc a, hclose, ha.isUtf8.append_iff,
      hr.isUtf8_append_iff]
  constructor
  · rintro (ha | ⟨ha, hv, hr⟩)
    · exact ⟨.empty ha, hclose.2 ha.isUtf8⟩
    · obtain ⟨hr, hrest⟩ := more_items_wellFormed_iff.1 hr
      exact ⟨.filled ha hv.1 hr, (hfilled ha hr).2 ⟨hv.2, hrest⟩⟩
  · rintro ⟨ha | ⟨ha, hv, hr⟩, hs⟩
    · exact .empty ha
    · obtain ⟨hvalue, hrest⟩ := (hfilled ha hr).1 hs
      exact .filled ha ⟨hv, hvalue⟩ (more_items_wellFormed_iff.2 ⟨hr, hrest⟩)

end Items

/-! ## The same text of other members -/

section Members

variable {κ κ' β β' : Type} {K : κ → Bytes → Prop} {K' : κ' → Bytes → Prop}
  {V : β → Bytes → Prop} {V' : β' → Bytes → Prop} {R : κ × β → κ' × β' → Prop}
  {m : κ × β} {ms : List (κ × β)} {h r s : Bytes}

theorem Pair.transfer (hm : Pair K V m h)
    (hR : ∀ q v, K m.1 q → V m.2 v → ∃ m', K' m'.1 q ∧ V' m'.2 v ∧ R m m') :
    ∃ m', Pair K' V' m' h ∧ R m m' := by
  obtain ⟨ha, hk, hb, hc, hv⟩ := hm
  obtain ⟨⟨k', y'⟩, hk', hv', hm⟩ := hR _ _ hk hv
  exact ⟨(k', y'), .mk ha hk' hb hc hv', hm⟩

theorem More.transfer (hr : More K V ms r)
    (hR : ∀ m ∈ ms, ∀ q v, K m.1 q → V m.2 v → ∃ m', K' m'.1 q ∧ V' m'.2 v ∧ R m m') :
    ∃ ms', More K' V' ms' r ∧ List.Forall₂ R ms ms' := by
  induction hr with
  | none hd => exact ⟨[], .none hd, .nil⟩
  | cons hd hm _ ih =>
    obtain ⟨hfirst, hrest⟩ := List.forall_mem_cons.1 hR
    obtain ⟨m', hm', hmm⟩ := hm.transfer hfirst
    obtain ⟨ms', hr', hms⟩ := ih hrest
    exact ⟨m' :: ms', .cons hd hm' hr', .cons hmm hms⟩

/-- What is written from members is also written from others, if this holds member by member. -/
theorem Object.transfer (h : Object K V ms s)
    (hR : ∀ m ∈ ms, ∀ q v, K m.1 q → V m.2 v → ∃ m', K' m'.1 q ∧ V' m'.2 v ∧ R m m') :
    ∃ ms', Object K' V' ms' s ∧ List.Forall₂ R ms ms' := by
  cases h with
  | empty ha => exact ⟨[], .empty ha, .nil⟩
  | filled hm hr =>
    obtain ⟨hfirst, hrest⟩ := List.forall_mem_cons.1 hR
    obtain ⟨m', hm', hmm⟩ := hm.transfer hfirst
    obtain ⟨ms', hr', hms⟩ := hr.transfer hrest
    exact ⟨m' :: ms', .filled hm' hr', .cons hmm hms⟩

theorem Object.mono {L : κ → Bytes → Prop} {W : β → Bytes → Prop} (h : Object K V ms s)
    (hK : ∀ m ∈ ms, ∀ q, K m.1 q → L m.1 q) (hV : ∀ m ∈ ms, ∀ v, V m.2 v → W m.2 v) :
    Object L W ms s := by
  obtain ⟨ms', h', heq⟩ := h.transfer fun m hm q v hk hv =>
    ⟨m, hK m hm q hk, hV m hm v hv, rfl⟩
  rw [List.forall₂_eq_eq_eq] at heq
  exact heq ▸ h'

theorem Object.forall_mem {P : κ × β → Prop} (h : Object K V ms s)
    (hP : ∀ m ∈ ms, ∀ q v, K m.1 q → V m.2 v → P m) : ∀ m ∈ ms, P m := by
  have hall : ∃ ms', Object K V ms' s ∧ List.Forall₂ (fun m _ => P m) ms ms' :=
    h.transfer fun m hm q v hk hv => ⟨m, hk, hv, hP m hm q v hk hv⟩
  obtain ⟨ms', -, hms⟩ := hall
  intro m hm
  obtain ⟨_, -, h⟩ := exists_mem_of_forall₂ hms m hm
  exact h

end Members

/-! ## Numbers are in ASCII -/

theorem Seq.forall_mem {P Q : Bytes → Prop} {C : UInt8 → Prop} {s : Bytes} (h : Seq P Q s)
    (hP : ∀ p, P p → ∀ b ∈ p, C b) (hQ : ∀ t, Q t → ∀ b ∈ t, C b) : ∀ b ∈ s, C b := by
  obtain ⟨p, t, hp, ht, rfl⟩ := h
  exact List.forall_mem_append.2 ⟨hP p hp, hQ t ht⟩

theorem AllDigits.ascii {s : Bytes} (h : AllDigits s) : ∀ b ∈ s, b < 0x80 := by
  intro b hb
  have hle : b ≤ 0x39 := of_decide_eq_true (Bool.and_eq_true_iff.1 (h b hb)).2
  exact UInt8.lt_of_le_of_lt hle (by decide)

theorem Exponent.ascii {s : Bytes} (h : Exponent s) : ∀ b ∈ s, b < 0x80 := by
  cases h with
  | none => exact fun _ h => nomatch h
  | digits hm hs =>
    refine List.forall_mem_cons.2 ⟨?_, hs.forall_mem (fun p hp => ?_) fun t ht => ht.2.ascii⟩
    · rcases hm with rfl | rfl <;> decide
    · cases hp <;> simp

theorem Number.ascii {s : Bytes} (h : Grammar.Number s) : ∀ b ∈ s, b < 0x80 := by
  have hwhole : ∀ w, Whole w → ∀ b ∈ w, b < 0x80 := by
    intro w hw
    cases hw with
    | zero => simp
    | digits hb _ hs => exact (hs.cons hb).ascii
  have hfraction : ∀ f, Fraction f → ∀ b ∈ f, b < 0x80 := by
    intro f hf
    cases hf with
    | none => exact fun _ h => nomatch h
    | digits hs => exact List.forall_mem_cons.2 ⟨by decide, hs.2.ascii⟩
  have hall {s : Bytes} (hs : Seq Whole (Seq Fraction Exponent) s) : ∀ b ∈ s, b < 0x80 :=
    hs.forall_mem hwhole fun t ht => ht.forall_mem hfraction fun e he => he.ascii
  cases h with
  | positive hs => exact hall hs
  | negative hs => exact List.forall_mem_cons.2 ⟨by decide, hall hs⟩

end Grammar

/-! ## Trees -/

/-- A text taken apart. Numbers stand as they are written, and strings and keys as they are written
between their quotes. -/
inductive Tree
  | null
  | boolean (b : Bool)
  | number (s : Bytes)
  | string (q : Bytes)
  | list (items : List Tree)
  | object (members : List (Bytes × Tree))

namespace Tree

open Grammar

/-- Of the items of a list and of the values of an object the claim may be used. -/
@[elab_as_elim, induction_eliminator]
theorem induction {P : Tree → Prop} (null : P .null) (boolean : ∀ b, P (.boolean b))
    (number : ∀ s, P (.number s)) (string : ∀ q, P (.string q))
    (list : ∀ items, (∀ t ∈ items, P t) → P (.list items))
    (object : ∀ members, (∀ m ∈ members, P m.2) → P (.object members)) (t : Tree) : P t := by
  apply Tree.rec (motive_1 := P) (motive_2 := fun items => ∀ t ∈ items, P t)
    (motive_3 := fun members => ∀ m ∈ members, P m.2) (motive_4 := fun m => P m.2)
  · exact null
  · exact boolean
  · exact number
  · exact string
  · exact list
  · exact object
  · exact fun _ h => nomatch h
  · exact fun _ _ hfirst hrest => List.forall_mem_cons.2 ⟨hfirst, hrest⟩
  · exact fun _ h => nomatch h
  · exact fun _ _ hfirst hrest => List.forall_mem_cons.2 ⟨hfirst, hrest⟩
  · exact fun _ _ h => h

/-- The part between quotes is this one. -/
def Between (q s : Bytes) : Prop := s = q ∧ Inner q

/-- The text of a tree, with any spaces. -/
inductive Written : Tree → Bytes → Prop
  | null : Written .null [0x6E, 0x75, 0x6C, 0x6C]
  | true : Written (.boolean true) [0x74, 0x72, 0x75, 0x65]
  | false : Written (.boolean false) [0x66, 0x61, 0x6C, 0x73, 0x65]
  | number {s : Bytes} (hs : Grammar.Number s) : Written (.number s) s
  | string {q : Bytes} (hq : Inner q) : Written (.string q) (0x22 :: (q ++ [0x22]))
  | list {items : List Tree} {s : Bytes} (hs : Items Written items s) : Written (.list items) s
  | object {members : List (Bytes × Tree)} {s : Bytes} (hs : Object Between Written members s) :
    Written (.object members) s

theorem Written.isValue {t : Tree} {s : Bytes} (h : t.Written s) : IsValue s := by
  induction t generalizing s with
  | null => cases h; exact .null
  | boolean b =>
    cases h with
    | true => exact .true
    | false => exact .false
  | number =>
    cases h with
    | number hs => exact .number hs
  | string =>
    cases h with
    | string hq => exact .string hq
  | list items ih =>
    cases h with
    | list hs =>
      have hvalues : Items (fun _ => IsValue) items s := hs.mono fun t ht v hv => ih t ht hv
      exact hvalues.isValue fun _ _ hv => hv
  | object members ih =>
    cases h with
    | object hs =>
      have hvalues : Object Between (fun _ => IsValue) members s :=
        hs.mono (fun _ _ _ hk => hk) fun m hm v hv => ih m hm hv
      exact hvalues.isValue (fun k q (hk : Between k q) => hk.1 ▸ hk.2) fun _ _ hv => hv

/-! ### Every value has a tree -/

/-- The trees of a part of the grammar. -/
def Has : Symbol → Bytes → Prop
  | .value, s => ∃ t, Written t s
  | .text, s => ∃ t, Around Written t s
  | .items, s => ∃ t ts a v r, Spaces a ∧ Written t v ∧ MoreItems Written ts r ∧ s = a ++ (v ++ r)
  | .members, s =>
    ∃ m ms h r, Pair Between Written m h ∧ More Between Written ms r ∧ s = h ++ r

theorem has_of_derives {symbol : Symbol} {s : Bytes} (h : Derives symbol s) : Has symbol s := by
  induction h with
  | null => exact ⟨_, .null⟩
  | true => exact ⟨_, .true⟩
  | false => exact ⟨_, .false⟩
  | number hs => exact ⟨_, .number hs⟩
  | string hs => exact ⟨_, .string hs⟩
  | emptyList hs => exact ⟨_, .list (.empty hs)⟩
  | list _ ih =>
    obtain ⟨t, ts, a, v, r, ha, hv, hr, rfl⟩ := ih
    refine ⟨.list (t :: ts), .list ?_⟩
    simpa using Items.filled ha hv hr
  | emptyObject hs => exact ⟨_, .object (.empty hs)⟩
  | object _ ih =>
    obtain ⟨m, ms, h, r, hm, hr, rfl⟩ := ih
    refine ⟨.object (m :: ms), .object ?_⟩
    simpa using Object.filled hm hr
  | text ha _ hb ih =>
    obtain ⟨t, ht⟩ := ih
    exact ⟨t, _, _, _, ha, ht, hb, rfl⟩
  | item _ ih =>
    obtain ⟨t, a, v, b, ha, hv, hb, rfl⟩ := ih
    exact ⟨t, [], a, v, b, ha, hv, .none hb, rfl⟩
  | items _ _ ih ih' =>
    obtain ⟨t, a, v, b, ha, hv, hb, rfl⟩ := ih
    obtain ⟨u, us, c, w, r, hc, hw, hr, rfl⟩ := ih'
    exact ⟨t, u :: us, a, v, _, ha, hv, .cons hb hc hw hr, by simp⟩
  | member ha hk hb _ ih =>
    obtain ⟨t, c, v, d, hc, hv, hd, rfl⟩ := ih
    exact ⟨(_, t), [], _, d, .mk ha ⟨rfl, hk⟩ hb hc hv, .none hd, by simp⟩
  | members ha hk hb _ _ ih ih' =>
    obtain ⟨t, c, v, d, hc, hv, hd, rfl⟩ := ih
    obtain ⟨m, ms, h, r, hm, hr, rfl⟩ := ih'
    exact ⟨(_, t), m :: ms, _, _, .mk ha ⟨rfl, hk⟩ hb hc hv, .cons hd hm hr, by simp⟩

theorem exists_written {s : Bytes} (h : IsValue s) : ∃ t, Written t s := has_of_derives h

/-! ## What a tree holds -/

theorem sizeOf_lt_of_mem {m : Bytes × Tree} {members : List (Bytes × Tree)} (h : m ∈ members) :
    sizeOf m.2 < sizeOf (object members) := by
  have hmember : sizeOf m < sizeOf members := List.sizeOf_lt_of_mem h
  have hvalue : sizeOf m = 1 + sizeOf m.1 + sizeOf m.2 := rfl
  rw [object.sizeOf_spec]
  omega

/-- How deep lists and objects nest. -/
def depth : Tree → Nat
  | .null | .boolean _ | .number _ | .string _ => 0
  | .list items => (items.map depth).foldr max 0 + 1
  | .object members => (members.map fun m => m.2.depth).foldr max 0 + 1
decreasing_by
  · decreasing_tactic
  · exact sizeOf_lt_of_mem ‹_›

/-- The tree and every tree in it are like this. -/
def Throughout (P : Tree → Prop) : Tree → Prop
  | .null => P .null
  | .boolean b => P (.boolean b)
  | .number s => P (.number s)
  | .string q => P (.string q)
  | .list items => P (.list items) ∧ ∀ t ∈ items, t.Throughout P
  | .object members => P (.object members) ∧ ∀ m ∈ members, m.2.Throughout P
decreasing_by
  · decreasing_tactic
  · exact sizeOf_lt_of_mem ‹_›

theorem foldr_max_le_iff {l : List Nat} {n : Nat} : l.foldr max 0 ≤ n ↔ ∀ d ∈ l, d ≤ n := by
  induction l with
  | nil => simp
  | cons d l ih => simp [ih]

theorem depth_list_le_iff {items : List Tree} {n : Nat} :
    (list items).depth ≤ n + 1 ↔ ∀ t ∈ items, t.depth ≤ n := by
  rw [depth, Nat.add_le_add_iff_right, foldr_max_le_iff, List.forall_mem_map]

theorem depth_object_le_iff {members : List (Bytes × Tree)} {n : Nat} :
    (object members).depth ≤ n + 1 ↔ ∀ m ∈ members, m.2.depth ≤ n := by
  rw [depth, Nat.add_le_add_iff_right, foldr_max_le_iff, List.forall_mem_map]

/-! ### Trees of texts in UTF-8 -/

/-- The string or the keys of the tree itself are in UTF-8. -/
def InUtf8 : Tree → Prop
  | .string q => Bytes.IsUtf8 q
  | .object members => ∀ m ∈ members, Bytes.IsUtf8 m.1
  | _ => True

theorem Written.isUtf8_iff {t : Tree} {s : Bytes} (h : t.Written s) :
    Bytes.IsUtf8 s ↔ t.Throughout InUtf8 := by
  induction t generalizing s with
  | null =>
    cases h
    rw [Throughout]
    exact iff_of_true (Bytes.isUtf8_ofString "null") trivial
  | boolean b =>
    rw [Throughout]
    cases h with
    | true => exact iff_of_true (Bytes.isUtf8_ofString "true") trivial
    | false => exact iff_of_true (Bytes.isUtf8_ofString "false") trivial
  | number =>
    cases h with
    | number hs =>
      rw [Throughout]
      exact iff_of_true (Bytes.isUtf8_of_ascii hs.ascii) trivial
  | string q =>
    cases h with
    | string hq =>
      rw [Throughout, Bytes.isUtf8_cons (by decide), Bytes.isUtf8_append_cons (by decide),
        and_iff_left Bytes.isUtf8_nil]
      rfl
  | list items ih =>
    cases h with
    | list hs =>
      rw [Throughout]
      constructor
      · intro hutf
        have hs := items_wellFormed_iff.2 ⟨hs, hutf⟩
        exact ⟨trivial, hs.forall_mem fun t ht v hv => (ih t ht hv.1).1 hv.2⟩
      · rintro ⟨-, hitems⟩
        have hs : Items (WellFormed Written) items s :=
          hs.mono fun t ht v hv => ⟨hv, (ih t ht hv).2 (hitems t ht)⟩
        exact (items_wellFormed_iff.1 hs).2
  | object members ih =>
    cases h with
    | object hs =>
      rw [Throughout]
      constructor
      · intro hutf
        have hs := object_wellFormed_iff.2 ⟨hs, hutf⟩
        exact ⟨hs.forall_mem fun m _ q v hk _ => hk.1.1 ▸ hk.2,
          hs.forall_mem fun m hm q v _ hv => (ih m hm hv.1).1 hv.2⟩
      · rintro ⟨hkeys, hvalues⟩
        have hs : Object (WellFormed Between) (WellFormed Written) members s :=
          hs.mono (fun m hm q hk => ⟨hk, hk.1 ▸ hkeys m hm⟩)
            fun m hm v hv => ⟨hv, (ih m hm hv).2 (hvalues m hm)⟩
        exact (object_wellFormed_iff.1 hs).2

end Tree

end JsonCabinet.Json
