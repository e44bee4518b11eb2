import JsonCabinet.Json.Reader
import JsonCabinet.Proofs.Json.Completeness
import JsonCabinet.Proofs.Json.Spelling

/-!
# Objects and their members

The objects of the grammar with their members in order, as they are told by the way in which keys
are spelled and values are written (`Object`). A reader of objects takes just these texts off a
text, if the reader of the values takes just the texts of the values (`Takes.object`,
`Gives.object`). An object is well-formed UTF-8 just if its keys and its values are
(`wellFormed_object`).
-/

namespace JsonCabinet.Json

/-! ## Objects in the grammar -/

namespace Grammar

section Objects

variable {κ β : Type} (K : κ → Bytes → Prop) (V : β → Bytes → Prop)

/-- A key between quotes, a colon and a value, with spaces in front of each. -/
inductive Pair : κ × β → Bytes → Prop
  | mk {k : κ} {y : β} {a q b c v : Bytes} (ha : Spaces a) (hk : K k q) (hb : Spaces b)
    (hc : Spaces c) (hv : V y v) :
    Pair (k, y) (a ++ 0x22 :: (q ++ 0x22 :: (b ++ 0x3A :: (c ++ v))))

/-- Members with a comma in front of each, up to the closing brace. -/
inductive More : List (κ × β) → Bytes → Prop
  | none {d : Bytes} (hd : Spaces d) : More [] d
  | cons {m : κ × β} {ms : List (κ × β)} {d h r : Bytes} (hd : Spaces d) (hm : Pair K V m h)
    (hr : More ms r) : More (m :: ms) (d ++ 0x2C :: (h ++ r))

/-- An object, with its members in order. -/
inductive Object : List (κ × β) → Bytes → Prop
  | empty {a : Bytes} (ha : Spaces a) : Object [] (0x7B :: (a ++ [0x7D]))
  | filled {m : κ × β} {ms : List (κ × β)} {h r : Bytes} (hm : Pair K V m h)
    (hr : More K V ms r) : Object (m :: ms) (0x7B :: (h ++ (r ++ [0x7D])))

variable {K V}

theorem members_of_pair {m : κ × β} {ms : List (κ × β)} {h r : Bytes}
    (hK : ∀ k q, K k q → Inner q) (hV : ∀ y v, V y v → IsValue v) (hm : Pair K V m h)
    (hr : More K V ms r) : Derives .members (h ++ r) := by
  induction hr generalizing m h with
  | none hd =>
    obtain ⟨ha, hk, hb, hc, hv⟩ := hm
    simpa using Derives.member ha (hK _ _ hk) hb (.text hc (hV _ _ hv) hd)
  | cons hd hnext _ ih =>
    obtain ⟨ha, hk, hb, hc, hv⟩ := hm
    simpa using Derives.members ha (hK _ _ hk) hb (.text hc (hV _ _ hv) hd) (ih hnext)

/-- An object is a value of the grammar. -/
theorem Object.isValue {ms : List (κ × β)} {s : Bytes} (hK : ∀ k q, K k q → Inner q)
    (hV : ∀ y v, V y v → IsValue v) (h : Object K V ms s) : IsValue s := by
  cases h with
  | empty ha => exact .emptyObject ha
  | filled hm hr => simpa using Derives.object (members_of_pair hK hV hm hr)

end Objects

/-- The key is spelled like this between its quotes. -/
def Key (name : String) (q : Bytes) : Prop := Spelled (Bytes.ofString name) q

/-! ### Objects in UTF-8 -/

theorem Spaces.ascii {a : Bytes} (ha : Spaces a) : ∀ b ∈ a, b < 0x80 :=
  fun b hb => Bytes.lt_of_isSpace (ha b hb)

theorem Spaces.isUtf8 {a : Bytes} (ha : Spaces a) : Bytes.IsUtf8 a := Bytes.isUtf8_of_ascii ha.ascii

/-- What is written in this way, in UTF-8. -/
def WellFormed {β : Type} (V : β → Bytes → Prop) (y : β) (v : Bytes) : Prop :=
  V y v ∧ Bytes.IsUtf8 v

section WellFormed

variable {κ β : Type} {K : κ → Bytes → Prop} {V : β → Bytes → Prop} {m : κ × β}
  {ms : List (κ × β)} {h r s : Bytes}

theorem pair_wellFormed_iff :
    Pair (WellFormed K) (WellFormed V) m h ↔ WellFormed (Pair K V) m h := by
  have hutf {a q b c v : Bytes} (ha : Spaces a) (hb : Spaces b) (hc : Spaces c) :
      Bytes.IsUtf8 (a ++ 0x22 :: (q ++ 0x22 :: (b ++ 0x3A :: (c ++ v)))) ↔
        Bytes.IsUtf8 q ∧ Bytes.IsUtf8 v := by
    rw [Bytes.isUtf8_append_cons (by decide), Bytes.isUtf8_append_cons (by decide),
      Bytes.isUtf8_append_cons (by decide), hc.isUtf8.append_iff, and_iff_right ha.isUtf8,
      and_iff_right hb.isUtf8]
  constructor
  · rintro ⟨ha, ⟨hk, hq⟩, hb, hc, hv, hvalue⟩
    exact ⟨.mk ha hk hb hc hv, (hutf ha hb hc).2 ⟨hq, hvalue⟩⟩
  · rintro ⟨⟨ha, hk, hb, hc, hv⟩, hh⟩
    obtain ⟨hq, hvalue⟩ := (hutf ha hb hc).1 hh
    exact .mk ha ⟨hk, hq⟩ hb hc ⟨hv, hvalue⟩

theorem Spaces.isUtf8_append_iff {d : Bytes} (hd : Spaces d) (p : Bytes) :
    Bytes.IsUtf8 (p ++ d) ↔ Bytes.IsUtf8 p ∧ Bytes.IsUtf8 d := by
  rw [Bytes.isUtf8_append_ascii hd.ascii, and_iff_left hd.isUtf8]

theorem Spaces.isUtf8_append_comma_iff {d : Bytes} (hd : Spaces d) (p q : Bytes) :
    Bytes.IsUtf8 (p ++ (d ++ 0x2C :: q)) ↔ Bytes.IsUtf8 p ∧ Bytes.IsUtf8 (d ++ 0x2C :: q) := by
  rw [← List.append_assoc, Bytes.isUtf8_append_cons (by decide),
    Bytes.isUtf8_append_cons (by decide), hd.isUtf8_append_iff, and_assoc]

/-- More members begin with a space or a comma, or there are none. -/
theorem More.isUtf8_append_iff (hr : More K V ms r) (p : Bytes) :
    Bytes.IsUtf8 (p ++ r) ↔ Bytes.IsUtf8 p ∧ Bytes.IsUtf8 r := by
  cases hr with
  | none hd => exact hd.isUtf8_append_iff p
  | cons hd => exact hd.isUtf8_append_comma_iff p _

theorem more_wellFormed_iff :
    More (WellFormed K) (WellFormed V) ms r ↔ WellFormed (More K V) ms r := by
  constructor
  · intro hr
    induction hr with
    | none hd => exact ⟨.none hd, hd.isUtf8⟩
    | cons hd hm _ ih =>
      obtain ⟨hm, hmember⟩ := pair_wellFormed_iff.1 hm
      obtain ⟨hr, hmore⟩ := ih
      refine ⟨.cons hd hm hr, ?_⟩
      rw [Bytes.isUtf8_append_cons (by decide), hr.isUtf8_append_iff]
      exact ⟨hd.isUtf8, hmember, hmore⟩
  · rintro ⟨hr, hutf⟩
    induction hr with
    | none hd => exact .none hd
    | cons hd hm hr ih =>
      rw [Bytes.isUtf8_append_cons (by decide), hr.isUtf8_append_iff] at hutf
      obtain ⟨-, hmember, hmore⟩ := hutf
      exact .cons hd (pair_wellFormed_iff.2 ⟨hm, hmember⟩) (ih hmore)

theorem object_wellFormed_iff :
    Object (WellFormed K) (WellFormed V) ms s ↔ WellFormed (Object K V) ms s := by
  have hclose {t : Bytes} : Bytes.IsUtf8 (0x7B :: (t ++ [0x7D])) ↔ Bytes.IsUtf8 t := by
    rw [Bytes.isUtf8_cons (by decide), Bytes.isUtf8_append_cons (by decide),
      and_iff_left Bytes.isUtf8_nil]
  constructor
  · rintro (ha | ⟨hm, hr⟩)
    · exact ⟨.empty ha, hclose.2 ha.isUtf8⟩
    · obtain ⟨hm, hmember⟩ := pair_wellFormed_iff.1 hm
      obtain ⟨hr, hmore⟩ := more_wellFormed_iff.1 hr
      refine ⟨.filled hm hr, ?_⟩
      rw [← List.append_assoc, hclose]
      exact hmember.append hmore
  · rintro ⟨ha | ⟨hm, hr⟩, hutf⟩
    · exact .empty ha
    · rw [← List.append_assoc, hclose, hr.isUtf8_append_iff] at hutf
      obtain ⟨hmember, hmore⟩ := hutf
      exact .filled (pair_wellFormed_iff.2 ⟨hm, hmember⟩) (more_wellFormed_iff.2 ⟨hr, hmore⟩)

/-- An object is well-formed UTF-8 just if its keys and its values are. -/
theorem wellFormed_object (K : κ → Bytes → Prop) (V : β → Bytes → Prop) :
    WellFormed (Object K V) = Object (WellFormed K) (WellFormed V) :=
  funext fun _ => funext fun _ => propext object_wellFormed_iff.symm

end WellFormed

/-! ### Objects seen in another way -/

/-- What is written for data of one kind is written for those of another kind that they are the
view of. -/
def Views {α β : Type} (view : α → β) (W : α → Bytes → Prop) (V : β → Bytes → Prop) : Prop :=
  ∀ y v, V y v ↔ ∃ x, view x = y ∧ W x v

/-- In UTF-8 what is spelled is a string. -/
theorem views_key : Views Bytes.ofString Key (WellFormed Spelled) := by
  intro n q
  constructor
  · rintro ⟨hq, hutf⟩
    obtain ⟨name, rfl⟩ : Bytes.IsUtf8 n := (hq.isUtf8_iff []).2 hutf
    exact ⟨name, rfl, hq⟩
  · rintro ⟨name, rfl, hq⟩
    exact ⟨hq, (hq.isUtf8_iff []).1 (Bytes.isUtf8_ofString name)⟩

section Views

variable {κ κ' β β' : Type} {f : κ' → κ} {g : β' → β} {K : κ → Bytes → Prop}
  {K' : κ' → Bytes → Prop} {V : β → Bytes → Prop} {V' : β' → Bytes → Prop}

/-- A member by the views of its key and of its value. -/
def viewMember (f : κ' → κ) (g : β' → β) (m : κ' × β') : κ × β := (f m.1, g m.2)

theorem views_pair (hK : Views f K' K) (hV : Views g V' V) :
    Views (viewMember f g) (Pair K' V') (Pair K V) := by
  intro m s
  constructor
  · rintro ⟨ha, hk, hb, hc, hv⟩
    obtain ⟨k', rfl, hk'⟩ := (hK _ _).1 hk
    obtain ⟨y', rfl, hy'⟩ := (hV _ _).1 hv
    exact ⟨(k', y'), rfl, .mk ha hk' hb hc hy'⟩
  · rintro ⟨m', rfl, ha, hk, hb, hc, hv⟩
    exact .mk ha ((hK _ _).2 ⟨_, rfl, hk⟩) hb hc ((hV _ _).2 ⟨_, rfl, hv⟩)

theorem views_more (hK : Views f K' K) (hV : Views g V' V) :
    Views (List.map (viewMember f g)) (More K' V') (More K V) := by
  have hpair := views_pair hK hV
  intro ms s
  constructor
  · intro hr
    induction hr with
    | none hd => exact ⟨[], rfl, .none hd⟩
    | cons hd hm _ ih =>
      obtain ⟨m', rfl, hm'⟩ := (hpair _ _).1 hm
      obtain ⟨ms', rfl, hms'⟩ := ih
      exact ⟨m' :: ms', rfl, .cons hd hm' hms'⟩
  · rintro ⟨ms', rfl, hr⟩
    induction hr with
    | none hd => exact .none hd
    | cons hd hm _ ih => exact .cons hd ((hpair _ _).2 ⟨_, rfl, hm⟩) ih

/-- The members of an object are viewed one by one. -/
theorem Views.object (hK : Views f K' K) (hV : Views g V' V) :
    Views (List.map (viewMember f g)) (Object K' V') (Object K V) := by
  have hpair := views_pair hK hV
  have hmore := views_more hK hV
  intro ms s
  constructor
  · rintro (ha | ⟨hm, hr⟩)
    · exact ⟨[], rfl, .empty ha⟩
    · obtain ⟨m', rfl, hm'⟩ := (hpair _ _).1 hm
      obtain ⟨ms', rfl, hms'⟩ := (hmore _ _).1 hr
      exact ⟨m' :: ms', rfl, .filled hm' hms'⟩
  · rintro ⟨ms', rfl, ha | ⟨hm, hr⟩⟩
    · exact .empty ha
    · exact .filled ((hpair _ _).2 ⟨_, rfl, hm⟩) ((hmore _ _).2 ⟨_, rfl, hr⟩)

end Views

/-! ### Spaces around -/

/-- The text is written in this way, with spaces around it. -/
def Around {β : Type} (V : β → Bytes → Prop) (y : β) (s : Bytes) : Prop :=
  ∃ a v b, Spaces a ∧ V y v ∧ Spaces b ∧ s = a ++ (v ++ b)

theorem around_wellFormed_iff {β : Type} {V : β → Bytes → Prop} {y : β} {s : Bytes} :
    Around (WellFormed V) y s ↔ WellFormed (Around V) y s := by
  have hutf {a v b : Bytes} (ha : Spaces a) (hb : Spaces b) :
      Bytes.IsUtf8 (a ++ (v ++ b)) ↔ Bytes.IsUtf8 v := by
    rw [ha.isUtf8.append_iff, Bytes.isUtf8_append_ascii hb.ascii]
  constructor
  · rintro ⟨a, v, b, ha, ⟨hv, hvalue⟩, hb, rfl⟩
    exact ⟨⟨a, v, b, ha, hv, hb, rfl⟩, (hutf ha hb).2 hvalue⟩
  · rintro ⟨⟨a, v, b, ha, hv, hb, rfl⟩, hs⟩
    exact ⟨a, v, b, ha, ⟨hv, (hutf ha hb).1 hs⟩, hb, rfl⟩

theorem Views.around {α β : Type} {g : α → β} {W : α → Bytes → Prop} {V : β → Bytes → Prop}
    (hV : Views g W V) : Views g (Around W) (Around V) := by
  intro y s
  constructor
  · rintro ⟨a, v, b, ha, hv, hb, rfl⟩
    obtain ⟨x, rfl, hx⟩ := (hV _ _).1 hv
    exact ⟨x, rfl, a, v, b, ha, hx, hb, rfl⟩
  · rintro ⟨x, rfl, a, v, b, ha, hx, hb, rfl⟩
    exact ⟨a, v, b, ha, (hV _ _).2 ⟨x, rfl, hx⟩, hb, rfl⟩

end Grammar

/-! ## Reading objects -/

namespace Reader

open Grammar Scan

variable {α : Type}

/-- Reads the value off every text that begins with this one, where no number goes on. -/
def Restores (reader : Reader α) (x : α) (v : Bytes) : Prop :=
  ∀ a s, Spaces a → EndsNumber s → reader.read (a ++ (v ++ s)) = .ok (x, s)

/-- What is written like this is read. -/
def Gives (reader : Reader α) (V : α → Bytes → Prop) : Prop := ∀ x v, V x v → reader.Restores x v

/-- What is read stands there like this, behind spaces. -/
def Takes (reader : Reader α) (V : α → Bytes → Prop) : Prop :=
  ∀ s x rest, reader.read s = .ok (x, rest) → ∃ a v, Spaces a ∧ V x v ∧ s = a ++ (v ++ rest)

section Members

variable {reader : Reader α} {V : α → Bytes → Prop} {m : String × α} {ms l : List (String × α)}
  {name : String} {h r s rest : Bytes}

theorem spaces_of_trimStart_cons {b : UInt8} (hs : Bytes.trimStart s = b :: rest) :
    ∃ a, Spaces a ∧ s = a ++ b :: rest := by
  obtain ⟨a, ha, h⟩ := exists_spaces_append s
  exact ⟨a, ha, hs ▸ h⟩

theorem key_eq_ok_iff :
    key s = .ok (name, rest) ↔
      ∃ q b, Key name q ∧ Spaces b ∧ s = q ++ 0x22 :: (b ++ 0x3A :: rest) := by
  unfold key
  constructor
  · intro h
    split at h
    · cases h
    · next hread =>
      obtain ⟨q, hq, rfl⟩ := Quoted.read_eq_ok_iff.1 hread
      split at h
      · cases h
      · next htrim =>
        obtain ⟨b, hb, rfl⟩ := spaces_of_trimStart_cons htrim
        split at h
        · next hcolon =>
          obtain rfl := beq_iff_eq.1 hcolon
          cases h
          exact ⟨q, b, hq, hb, rfl⟩
        · cases h
  · rintro ⟨q, b, hq, hb, rfl⟩
    have hread : Quoted.read (q ++ 0x22 :: (b ++ 0x3A :: rest)) =
        .ok (name, b ++ 0x3A :: rest) := Quoted.read_eq_ok_iff.2 ⟨q, hq, rfl⟩
    simp only [hread, trimStart_append hb, trimStart_cons (b := 0x3A) (s := rest) rfl]
    rfl

/-! ### What has been read -/

theorem pair_of_member (hV : reader.Takes V) {a : Bytes} (ha : Spaces a)
    (h : member reader s = .ok (m, rest)) :
    ∃ t, Pair Key V m (a ++ 0x22 :: t) ∧ s = t ++ rest := by
  unfold member at h
  split at h
  · cases h
  · next hk =>
    split at h
    · next hread =>
      cases h
      obtain ⟨q, b, hq, hb, rfl⟩ := key_eq_ok_iff.1 hk
      obtain ⟨c, v, hc, hv, rfl⟩ := hV _ _ _ hread
      exact ⟨_, .mk ha hq hb hc hv, by simp⟩
    · cases h

theorem more_of_members (hV : reader.Takes V) {read : List (String × α)}
    (h : members reader read s = .ok (ms, rest)) :
    ∃ l r, More Key V l r ∧ ms = read.reverse ++ l ∧ s = r ++ 0x7D :: rest := by
  fun_induction members reader read s with
  | case2 read s b tail hs hb =>
    obtain rfl := beq_iff_eq.1 hb
    cases h
    obtain ⟨d, hd, rfl⟩ := spaces_of_trimStart_cons hs
    exact ⟨[], d, .none hd, by simp, rfl⟩
  | case4 read s b tail hs _ hb c tail' hr hc m tail'' hm ih =>
    obtain rfl := beq_iff_eq.1 hb
    obtain rfl := beq_iff_eq.1 hc
    obtain ⟨d, hd, rfl⟩ := spaces_of_trimStart_cons hs
    obtain ⟨a, ha, rfl⟩ := spaces_of_trimStart_cons hr
    obtain ⟨t, ht, rfl⟩ := pair_of_member hV ha hm
    obtain ⟨l, r, hmore, rfl, rfl⟩ := ih h
    exact ⟨m :: l, _, .cons hd ht hmore, by simp, by simp⟩
  | _ => cases h

theorem object_of_body (hV : reader.Takes V) (h : objectBody reader s = .ok (l, rest)) :
    ∃ r, Object Key V l (0x7B :: r) ∧ s = r ++ rest := by
  unfold objectBody at h
  split at h
  · cases h
  · next hs =>
    obtain ⟨a, ha, rfl⟩ := spaces_of_trimStart_cons hs
    split at h
    · next hclose =>
      obtain rfl := beq_iff_eq.1 hclose
      cases h
      exact ⟨_, .empty ha, by simp⟩
    · split at h
      · next hquote =>
        obtain rfl := beq_iff_eq.1 hquote
        split at h
        · next hm =>
          obtain ⟨t, ht, rfl⟩ := pair_of_member hV ha hm
          obtain ⟨l, r, hmore, rfl, rfl⟩ := more_of_members hV h
          exact ⟨_, .filled ht hmore, by simp⟩
        · cases h
      · cases h

/-- A reader of objects takes objects, whose values are what the reader of values takes. -/
theorem Takes.object (hV : reader.Takes V) : (object reader).Takes (Object Key V) := by
  intro s l rest hread
  have h : readObject reader s = .ok (l, rest) := hread
  unfold readObject at h
  split at h
  · cases h
  · next hs =>
    obtain ⟨a, ha, rfl⟩ := spaces_of_trimStart_cons hs
    split at h
    · next hbrace =>
      obtain rfl := beq_iff_eq.1 hbrace
      obtain ⟨r, hr, rfl⟩ := object_of_body hV h
      exact ⟨a, _, ha, hr, rfl⟩
    · cases h

/-! ### What can be read -/

theorem member_of_pair (hV : reader.Gives V) (hm : Pair Key V m h) (hs : EndsNumber s) :
    ∃ a t, Spaces a ∧ h = a ++ 0x22 :: t ∧ member reader (t ++ s) = .ok (m, s) := by
  obtain ⟨ha, hk, hb, hc, hv⟩ := hm
  refine ⟨_, _, ha, rfl, ?_⟩
  simp only [List.append_assoc, List.cons_append]
  rw [member, key_eq_ok_iff.2 ⟨_, _, hk, hb, rfl⟩]
  simp only [hV _ _ hv _ s hc hs]

/-- Behind a value no number goes on. -/
theorem endsNumber_more {κ β : Type} {K : κ → Bytes → Prop} {V : β → Bytes → Prop}
    {ms : List (κ × β)} (hr : More K V ms r) (s : Bytes) : EndsNumber (r ++ 0x7D :: s) := by
  cases hr with
  | none hd => exact endsNumber_spaces hd (endsNumber_closer .object s)
  | cons hd =>
    rw [List.append_assoc]
    exact endsNumber_spaces hd (endsNumber_comma _)

theorem members_close {a : Bytes} (ha : Spaces a) :
    members reader ms (a ++ 0x7D :: s) = .ok (ms.reverse, s) := by
  have htrim : Bytes.trimStart (a ++ 0x7D :: s) = 0x7D :: s := by
    rw [trimStart_append ha, trimStart_cons rfl]
  rw [members]
  split
  · next h => rw [htrim] at h; cases h
  · next h =>
    rw [htrim] at h
    cases h
    rfl

/-- Behind a comma and a quote one more member is read. -/
theorem members_comma_eq {a d t : Bytes} (hd : Spaces d) (ha : Spaces a) :
    members reader ms (d ++ 0x2C :: (a ++ 0x22 :: t)) =
      (member reader t).bind fun p => members reader (p.1 :: ms) p.2 := by
  have hcomma : Bytes.trimStart (d ++ 0x2C :: (a ++ 0x22 :: t)) = 0x2C :: (a ++ 0x22 :: t) := by
    rw [trimStart_append hd, trimStart_cons rfl]
  have hquote : Bytes.trimStart (a ++ 0x22 :: t) = 0x22 :: t := by
    rw [trimStart_append ha, trimStart_cons rfl]
  rw [members]
  split
  · next h => rw [hcomma] at h; cases h
  · next h =>
    rw [hcomma] at h
    cases h
    rw [if_neg (by decide), if_pos (by decide)]
    split
    · next h => rw [hquote] at h; cases h
    · next h =>
      rw [hquote] at h
      cases h
      rw [if_pos (by decide)]
      split
      · next hm => rw [hm]; rfl
      · next hm => rw [hm]; rfl

theorem objectBody_close {a : Bytes} (ha : Spaces a) :
    objectBody reader (a ++ 0x7D :: s) = .ok ([], s) := by
  rw [objectBody, trimStart_append ha, trimStart_cons rfl]
  rfl

theorem objectBody_quote_eq {a t : Bytes} (ha : Spaces a) :
    objectBody reader (a ++ 0x22 :: t) =
      (member reader t).bind fun p => members reader [p.1] p.2 := by
  rw [objectBody, trimStart_append ha, trimStart_cons rfl]
  simp only [show ((0x22 : UInt8) == 0x7D) = false from rfl, Bool.false_eq_true, if_false,
    beq_self_eq_true, if_true]
  cases member reader t with
  | error fault => rfl
  | ok p => rfl

theorem members_of_more (hV : reader.Gives V) (hr : More Key V l r) :
    members reader ms (r ++ 0x7D :: s) = .ok (ms.reverse ++ l, s) := by
  induction hr generalizing ms with
  | none hd =>
    rw [List.append_nil]
    exact members_close hd
  | @cons m l d h r hd hm hr ih =>
    obtain ⟨a, t, ha, rfl, hread⟩ := member_of_pair hV hm (endsNumber_more hr s)
    simp only [List.append_assoc, List.cons_append]
    rw [members_comma_eq hd ha, hread, Except.bind, ih]
    simp

theorem readObject_brace {a : Bytes} (ha : Spaces a) :
    readObject reader (a ++ 0x7B :: s) = objectBody reader s := by
  rw [readObject, trimStart_append ha, trimStart_cons rfl]
  rfl

/-- An object is read member by member, if the values in it can be read. -/
theorem Gives.object (hV : reader.Gives V) : (object reader).Gives (Object Key V) := by
  intro l v hv a s ha _
  show readObject reader (a ++ (v ++ s)) = .ok (l, s)
  cases hv with
  | empty hb =>
    rw [List.cons_append, readObject_brace ha, List.append_assoc]
    exact objectBody_close hb
  | @filled m l h r hm hr =>
    obtain ⟨b, t, hb, rfl, hread⟩ := member_of_pair hV hm (endsNumber_more hr s)
    simp only [List.cons_append, List.append_assoc, List.nil_append]
    rw [readObject_brace ha, objectBody_quote_eq hb, hread, Except.bind, members_of_more hV hr]
    rfl

end Members

/-! ### Tables -/

/-- An object that makes up the table, where the last member of each name counts. -/
def Listed (V : α → Bytes → Prop) (t : Table α) (v : Bytes) : Prop :=
  ∃ ms, Table.ofList ms = t ∧ Object Key V ms v

section Tables

variable {reader : Reader α} {V : α → Bytes → Prop}

theorem Takes.table (hV : reader.Takes V) : (table reader).Takes (Listed V) := by
  intro s t rest h
  obtain ⟨⟨ms, r⟩, hread, heq⟩ := map_eq_ok h
  cases heq
  obtain ⟨a, v, ha, hv, hs⟩ := hV.object s ms rest hread
  exact ⟨a, v, ha, ⟨ms, rfl, hv⟩, hs⟩

theorem Gives.table (hV : reader.Gives V) : (table reader).Gives (Listed V) := by
  rintro _ v ⟨ms, rfl, hv⟩ a s ha hs
  simp only [Reader.table, hV.object ms v hv a s ha hs, Except.map]

end Tables

/-! ### Whole texts -/

section Texts

variable {reader : Reader α} {V : α → Bytes → Prop} {s : Bytes} {x : α}

theorem Takes.readAll (hV : reader.Takes V) (h : reader.readAll s = .ok x) : Around V x s := by
  unfold Reader.readAll at h
  split at h
  · cases h
  · next hr =>
    split at h
    · next hrest =>
      cases h
      obtain ⟨a, v, ha, hv, rfl⟩ := hV _ _ _ hr
      exact ⟨a, v, _, ha, hv, spaces_of_trimStart hrest, rfl⟩
    · cases h

theorem Gives.readAll (hV : reader.Gives V) (h : Around V x s) : reader.readAll s = .ok x := by
  obtain ⟨a, v, b, ha, hv, hb, rfl⟩ := h
  have hends : EndsNumber b := by simpa using endsNumber_spaces (s := []) hb trivial
  simp only [Reader.readAll, hV x v hv a b ha hends, trimStart_of_spaces hb]

/-- A reader that gives just what it takes reads just the texts of its values. -/
theorem readAll_eq_ok_iff (htakes : reader.Takes V) (hgives : reader.Gives V) :
    reader.readAll s = .ok x ↔ Around V x s :=
  ⟨htakes.readAll, hgives.readAll⟩

end Texts

end Reader

end JsonCabinet.Json
