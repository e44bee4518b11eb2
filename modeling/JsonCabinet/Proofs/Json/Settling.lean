import JsonCabinet.Proofs.Json.Trees

/-!
# What a reader makes of a known text

A reader settles a text by a property, if off this text it reads just what has the property
(`Reader.Settles`). Of a text that is known to be a list or an object a reader makes what it makes
of the parts in order, and it fails where it fails at one of them. So it settles the text by
properties of the parts (`results_listBody`, `results_objectBody`), whether these can be read or
not.
-/

namespace JsonCabinet.Json

open Grammar Scan

variable {α β : Type}

/-- What is read is just what has the property, and this is left. -/
def Results (outcome : Except Fault (α × Bytes)) (P : α → Prop) (s : Bytes) : Prop :=
  ∀ x rest, outcome = .ok (x, rest) ↔ P x ∧ rest = s

namespace Results

variable {outcome : Except Fault (α × Bytes)} {P Q : α → Prop} {s : Bytes}

theorem ok (x : α) (s : Bytes) : Results (.ok (x, s)) (fun y => y = x) s := by
  intro y rest
  rw [Except.ok.injEq, Prod.mk.injEq]
  exact and_congr eq_comm eq_comm

theorem congr (h : Results outcome P s) (hPQ : ∀ x, P x ↔ Q x) : Results outcome Q s :=
  fun x rest => (h x rest).trans (and_congr_left' (hPQ x))

theorem map (h : Results outcome P s) (f : α → β) :
    Results (outcome.map fun p => (f p.1, p.2)) (fun y => ∃ x, P x ∧ y = f x) s := by
  intro y rest
  constructor
  · intro hy
    obtain ⟨⟨x, r⟩, hx, heq⟩ := map_eq_ok hy
    cases heq
    obtain ⟨hP, hs⟩ := (h x r).1 hx
    exact ⟨⟨x, hP, rfl⟩, hs⟩
  · rintro ⟨⟨x, hP, rfl⟩, hs⟩
    rw [(h x rest).2 ⟨hP, hs⟩]
    rfl

/-- What is read first is something with the property, or nothing is read. -/
theorem bind_iff {γ : Type} (h : Results outcome P s) {f : α × Bytes → Except Fault γ} {z : γ} :
    outcome.bind f = .ok z ↔ ∃ x, P x ∧ f (x, s) = .ok z := by
  constructor
  · intro hz
    cases ho : outcome with
    | error fault =>
      rw [ho] at hz
      cases hz
    | ok p =>
      obtain ⟨hP, hs⟩ := (h p.1 p.2).1 ho
      rw [ho] at hz
      exact ⟨p.1, hP, hs ▸ hz⟩
  · rintro ⟨x, hP, hz⟩
    rw [(h x s).2 ⟨hP, rfl⟩]
    exact hz

end Results

/-- A list is told item by item from the first one on. -/
theorem exists_forall₂_cons {P : β → α → Prop} {y : β} {ys : List β} (Q : List α → Prop) :
    (∃ l, List.Forall₂ P (y :: ys) l ∧ Q l) ↔
      ∃ x, P y x ∧ ∃ xs, List.Forall₂ P ys xs ∧ Q (x :: xs) := by
  constructor
  · rintro ⟨_, _ | ⟨hx, hxs⟩, h⟩
    exact ⟨_, hx, _, hxs, h⟩
  · rintro ⟨x, hx, xs, hxs, h⟩
    exact ⟨_, .cons hx hxs, h⟩

/-! ## Strings -/

theorem inner_append_inj {q q' s s' : Bytes} (hq : Inner q) (hq' : Inner q')
    (h : q ++ 0x22 :: s = q' ++ 0x22 :: s') : q = q' ∧ s = s' := by
  have hend {q : Bytes} (hq : Inner q) (s : Bytes) :
      Scan.run (.string .value) [] (q ++ 0x22 :: s) = .ok s := by
    rw [run_inner hq]
    rfl
  have hs : s = s' := Except.ok.inj ((hend hq s).symm.trans (h ▸ hend hq' s'))
  subst hs
  exact ⟨List.append_cancel_right h, rfl⟩

theorem Quoted.results_inner {q : Bytes} (hq : Inner q) (s : Bytes) :
    Results (read (q ++ 0x22 :: s)) (fun name => Key name q) s := by
  intro name rest
  rw [read_eq_ok_iff]
  constructor
  · rintro ⟨q', hq', h⟩
    obtain ⟨rfl, rfl⟩ := inner_append_inj hq hq'.inner h
    exact ⟨hq', rfl⟩
  · rintro ⟨hk, rfl⟩
    exact ⟨q, hk, rfl⟩

namespace Reader

/-- A key is read off its text, if it is one. -/
theorem results_key {q b : Bytes} (hq : Inner q) (hb : Spaces b) (s : Bytes) :
    Results (key (q ++ 0x22 :: (b ++ 0x3A :: s))) (fun name => Key name q) s := by
  intro name rest
  rw [key_eq_ok_iff]
  constructor
  · rintro ⟨q', b', hq', hb', heq⟩
    obtain ⟨rfl, hrest⟩ := inner_append_inj hq hq'.inner heq
    have htrim := congrArg Bytes.trimStart hrest
    rw [trimStart_append hb, trimStart_append hb', trimStart_cons rfl, trimStart_cons rfl] at htrim
    cases htrim
    exact ⟨hq', rfl⟩
  · rintro ⟨hk, rfl⟩
    exact ⟨q, b, hk, hb, rfl⟩

/-! ## Texts that are settled -/

/-- Off this text just what has the property is read, where no number goes on. -/
def Settles (reader : Reader α) (w : Bytes) (P : α → Prop) : Prop :=
  ∀ a s, Spaces a → EndsNumber s → Results (reader.read (a ++ (w ++ s))) P s

section Settles

variable {reader : Reader α} {w : Bytes} {P Q : α → Prop} {x : α}

theorem Settles.congr (h : reader.Settles w P) (hPQ : ∀ x, P x ↔ Q x) : reader.Settles w Q :=
  fun a s ha hs => (h a s ha hs).congr hPQ

theorem Settles.readAll_eq_ok_iff (h : reader.Settles w P) : reader.readAll w = .ok x ↔ P x := by
  have hread : Results (reader.read w) P [] := by simpa using h [] [] spaces_nil trivial
  unfold readAll
  split
  · next hr =>
    refine iff_of_false (fun h => by cases h) fun hx => ?_
    cases hr.symm.trans ((hread x []).2 ⟨hx, rfl⟩)
  · next hr =>
    obtain ⟨hy, rfl⟩ := (hread _ _).1 hr
    constructor
    · intro h
      cases h
      exact hy
    · intro hx
      cases hr.symm.trans ((hread x []).2 ⟨hx, rfl⟩)
      rfl

end Settles

/-- The text is a value and is settled by what holds of the data. -/
def Settled (reader : Reader α) (P : β → α → Prop) (y : β) (w : Bytes) : Prop :=
  IsValue w ∧ reader.Settles w (P y)

/-! ## Lists -/

section Lists

variable {item : Reader α} {P : β → α → Prop} {y : β} {ys : List β} {read l : List α}
  {a d r s v w rest : Bytes}

theorem items_close (hd : Spaces d) : items item read (d ++ 0x5D :: s) = .ok (read.reverse, s) := by
  have htrim : Bytes.trimStart (d ++ 0x5D :: s) = 0x5D :: s := by
    rw [trimStart_append hd, trimStart_cons rfl]
  rw [items]
  split
  · next h => rw [htrim] at h; cases h
  · next h =>
    rw [htrim] at h
    cases h
    rfl

/-- The first byte of an item is no space and closes no list. -/
theorem Settled.exists_cons (hv : Settled item P y v) (hs : EndsNumber s) :
    ∃ b t, v = b :: t ∧ Bytes.isSpace b = false ∧ b ≠ 0x5D ∧
      Results (item.read (b :: (t ++ s))) (P y) s := by
  obtain ⟨hvalue, hsettles⟩ := hv
  obtain ⟨b, t, rfl, hb, hclose⟩ := exists_cons_of_isValue hvalue
  exact ⟨b, t, rfl, hb, hclose, hsettles [] s spaces_nil hs⟩

/-- Behind a comma one more item is read, unless a bracket follows. -/
theorem items_comma_eq {b : UInt8} (hd : Spaces d) (ha : Spaces a)
    (hb : Bytes.isSpace b = false) (hclose : b ≠ 0x5D) :
    items item read (d ++ 0x2C :: (a ++ b :: s)) =
      (item.read (b :: s)).bind fun p => items item (p.1 :: read) p.2 := by
  have hcomma : Bytes.trimStart (d ++ 0x2C :: (a ++ b :: s)) = 0x2C :: (a ++ b :: s) := by
    rw [trimStart_append hd, trimStart_cons rfl]
  have hfirst : Bytes.trimStart (a ++ b :: s) = b :: s := by
    rw [trimStart_append ha, trimStart_cons hb]
  rw [items]
  split
  · next h => rw [hcomma] at h; cases h
  · next h =>
    rw [hcomma] at h
    cases h
    rw [if_neg (by decide), if_pos (by decide)]
    split
    · next h => rw [hfirst] at h; cases h
    · next h =>
      rw [hfirst] at h
      cases h
      rw [if_neg (by simpa using hclose)]
      split
      · next hx => rw [hx]; rfl
      · next hx => rw [hx]; rfl

theorem listBody_eq {b : UInt8} (ha : Spaces a) (hb : Bytes.isSpace b = false)
    (hclose : b ≠ 0x5D) : listBody item (a ++ b :: s) =
      (item.read (b :: s)).bind fun p => items item [p.1] p.2 := by
  rw [listBody, trimStart_append ha, trimStart_cons hb]
  simp only [beq_eq_false_iff_ne.2 hclose, Bool.false_eq_true, if_false]
  cases item.read (b :: s) with
  | error fault => rfl
  | ok p => rfl

theorem endsNumber_moreItems {V : β → Bytes → Prop} (hr : MoreItems V ys r) (s : Bytes) :
    EndsNumber (r ++ 0x5D :: s) := by
  cases hr with
  | none hd => exact endsNumber_spaces hd (endsNumber_closer .list s)
  | cons hd =>
    rw [List.append_assoc]
    exact endsNumber_spaces hd (endsNumber_comma _)

theorem items_moreItems_iff (hr : MoreItems (Settled item P) ys r) :
    items item read (r ++ 0x5D :: s) = .ok (l, rest) ↔
      ∃ xs, List.Forall₂ P ys xs ∧ l = read.reverse ++ xs ∧ rest = s := by
  induction hr generalizing read with
  | none hd =>
    rw [items_close hd]
    simp [eq_comm]
  | cons hd ha hv hr ih =>
    obtain ⟨b, t, rfl, hb, hclose, hread⟩ := hv.exists_cons (endsNumber_moreItems hr s)
    simp only [List.append_assoc, List.cons_append, items_comma_eq hd ha hb hclose,
      hread.bind_iff, ih, exists_forall₂_cons, List.reverse_cons, List.nil_append]

/-- A list is settled item by item. -/
theorem results_listBody (h : Items (Settled item P) ys (0x5B :: w)) (s : Bytes) :
    Results (listBody item (w ++ s)) (List.Forall₂ P ys) s := by
  intro l rest
  cases h with
  | empty ha =>
    rw [List.append_assoc, listBody, trimStart_append ha, List.singleton_append,
      trimStart_cons rfl]
    simp [eq_comm]
  | @filled y ys a v r ha hv hr =>
    obtain ⟨b, t, rfl, hb, hclose, hread⟩ := hv.exists_cons (endsNumber_moreItems hr s)
    have hrest : List.Forall₂ P (y :: ys) l ∧ rest = s ↔
        ∃ x, P y x ∧ items item [x] (r ++ 0x5D :: s) = .ok (l, rest) := by
      simp only [items_moreItems_iff hr, List.reverse_singleton, List.singleton_append]
      rw [← exists_forall₂_cons fun xs => l = xs ∧ rest = s]
      simp
    simp only [List.append_assoc, List.cons_append, List.nil_append]
    rw [listBody_eq ha hb hclose, hread.bind_iff, hrest]

end Lists

/-! ## Objects -/

/-- A member whose key is spelled and whose value is told like this. -/
inductive Member (P : β → α → Prop) : Bytes × β → String × α → Prop
  | mk {q : Bytes} {name : String} {y : β} {x : α} (hk : Key name q) (hx : P y x) :
    Member P (q, y) (name, x)

section Objects

variable {reader : Reader α} {P : β → α → Prop} {m : Bytes × β} {ms : List (Bytes × β)}
  {read l : List (String × α)} {d h r s w rest : Bytes}

theorem member_eq (s : Bytes) : member reader s =
    (key s).bind fun p => (reader.read p.2).map fun q => ((p.1, q.1), q.2) := by
  unfold member
  cases key s with
  | error fault => rfl
  | ok p => cases hread : reader.read p.2 <;> simp only [Except.bind, hread, Except.map]

/-- A member is read, or its key or its value cannot be. -/
theorem results_member (hm : Pair Tree.Between (Settled reader P) m h) :
    ∃ a t, Spaces a ∧ h = a ++ 0x22 :: t ∧
      ∀ s, EndsNumber s → Results (member reader (t ++ s)) (Member P m) s := by
  obtain ⟨ha, ⟨rfl, hq⟩, hb, hc, -, hsettles⟩ := hm
  refine ⟨_, _, ha, rfl, fun s hs x rest => ?_⟩
  have hvalue (name : String) := (hsettles _ s hc hs).map fun y => (name, y)
  simp only [List.append_assoc, List.cons_append]
  rw [member_eq, (results_key hq hb _).bind_iff]
  constructor
  · rintro ⟨name, hk, hread⟩
    obtain ⟨⟨y, hy, rfl⟩, rfl⟩ := (hvalue name x rest).1 hread
    exact ⟨.mk hk hy, rfl⟩
  · rintro ⟨⟨hk, hy⟩, rfl⟩
    exact ⟨_, hk, (hvalue _ _ _).2 ⟨⟨_, hy, rfl⟩, rfl⟩⟩

theorem members_more_iff (hr : More Tree.Between (Settled reader P) ms r) :
    members reader read (r ++ 0x7D :: s) = .ok (l, rest) ↔
      ∃ xs, List.Forall₂ (Member P) ms xs ∧ l = read.reverse ++ xs ∧ rest = s := by
  induction hr generalizing read with
  | none hd =>
    rw [members_close hd]
    simp [eq_comm]
  | cons hd hm hr ih =>
    obtain ⟨a, t, ha, rfl, hmember⟩ := results_member hm
    simp only [List.append_assoc, List.cons_append, members_comma_eq hd ha,
      (hmember _ (endsNumber_more hr s)).bind_iff, ih, exists_forall₂_cons, List.reverse_cons,
      List.nil_append]

/-- An object is settled member by member. -/
theorem results_objectBody (h : Object Tree.Between (Settled reader P) ms (0x7B :: w))
    (s : Bytes) : Results (objectBody reader (w ++ s)) (List.Forall₂ (Member P) ms) s := by
  intro l rest
  cases h with
  | empty ha =>
    rw [List.append_assoc, List.singleton_append, objectBody_close ha]
    simp [eq_comm]
  | @filled m ms h r hm hr =>
    obtain ⟨a, t, ha, rfl, hmember⟩ := results_member hm
    have hrest : List.Forall₂ (Member P) (m :: ms) l ∧ rest = s ↔
        ∃ x, Member P m x ∧ members reader [x] (r ++ 0x7D :: s) = .ok (l, rest) := by
      simp only [members_more_iff hr, List.reverse_singleton, List.singleton_append]
      rw [← exists_forall₂_cons fun xs => l = xs ∧ rest = s]
      simp
    simp only [List.append_assoc, List.cons_append, List.nil_append]
    rw [objectBody_quote_eq ha, (hmember _ (endsNumber_more hr s)).bind_iff, hrest]

/-- The key that an object begins with is that of a member. -/
theorem exists_mem_of_key {V : β → Bytes → Prop} {name : String}
    (h : Object Tree.Between V ms (0x7B :: w)) (hw : Bytes.trimStart (w ++ s) = 0x22 :: r)
    (hkey : key r = .ok (name, rest)) : ∃ m ∈ ms, Key name m.1 := by
  cases h with
  | empty ha =>
    rw [List.append_assoc, trimStart_append ha, List.singleton_append, trimStart_cons rfl] at hw
    cases hw
  | filled hm =>
    obtain ⟨ha, ⟨rfl, hq⟩, hb, -⟩ := hm
    simp only [List.append_assoc, List.cons_append] at hw
    rw [trimStart_append ha, trimStart_cons rfl] at hw
    cases hw
    exact ⟨_, List.mem_cons_self, ((results_key hq hb _ _ _).1 hkey).1⟩

end Objects

end Reader

end JsonCabinet.Json
