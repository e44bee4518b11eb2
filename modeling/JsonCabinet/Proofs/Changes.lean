import JsonCabinet.Proofs.Effects

/-!
# Changes, and what they leave

An operation that succeeds makes at most one change of the contents, named by the collection that
is meant (`Settings.change?`). What is found after it is told by the change alone
(`document?_effect`, `contains_effect`). So contents that were made by changes are known from the
list of them (`Recorded`): a collection exists if it was stored into and not dropped since, and a
key has the document that was stored last, unless it has been removed since.
-/

namespace JsonCabinet

/-! ## Names that are meant -/

namespace Settings

/-- The collection that a name means: the empty name means the default one. -/
def meant (s : Settings) (name : String) : String :=
  if name = "" then s.defaultCollection else name

theorem collectionName_eq_ite (s : Settings) (name : String) :
    s.collectionName name = if name = "" ∧ s.emptyNames = .reject
      then .error (.validation .emptyCollection) else .ok (s.meant name) := by
  unfold collectionName meant
  by_cases hn : name = ""
  · cases he : s.emptyNames <;> simp [hn]
  · simp [hn]

theorem address_eq_ite (s : Settings) (name key : String) :
    s.address name key = if name = "" ∧ s.emptyNames = .reject
      then .error (.validation .emptyCollection)
      else if key = "" then .error (.validation .emptyKey) else .ok (s.meant name, key) := by
  rw [address, collectionName_eq_ite]
  by_cases h : name = "" ∧ s.emptyNames = .reject
  · rw [if_pos h, if_pos h]
  · rw [if_neg h, if_neg h]

end Settings

/-- The names of the operation are refused: its key is empty, or its collection is and may not
be. -/
def Operation.Refused (s : Settings) : Operation → Prop
  | .set c k _ | .get c k | .delete c k => (c = "" ∧ s.emptyNames = .reject) ∨ k = ""
  | .list c _ _ | .dropCollection c => c = "" ∧ s.emptyNames = .reject
  | .collections | .flush => False

namespace Settings

variable {s : Settings} {name key : String}

theorem address_of_refused (h : (name = "" ∧ s.emptyNames = .reject) ∨ key = "") :
    ∃ why, s.address name key = .error (.validation why) := by
  rw [address_eq_ite]
  by_cases hn : name = "" ∧ s.emptyNames = .reject
  · exact ⟨.emptyCollection, if_pos hn⟩
  · exact ⟨.emptyKey, by rw [if_neg hn, if_pos (h.resolve_left hn)]⟩

theorem address_of_not_refused (h : ¬((name = "" ∧ s.emptyNames = .reject) ∨ key = "")) :
    s.address name key = .ok (s.meant name, key) := by
  obtain ⟨hn, hk⟩ := not_or.1 h
  rw [address_eq_ite, if_neg hn, if_neg hk]

theorem collectionName_of_refused (h : name = "" ∧ s.emptyNames = .reject) :
    s.collectionName name = .error (.validation .emptyCollection) := by
  rw [collectionName_eq_ite, if_pos h]

theorem collectionName_of_not_refused (h : ¬(name = "" ∧ s.emptyNames = .reject)) :
    s.collectionName name = .ok (s.meant name) := by
  rw [collectionName_eq_ite, if_neg h]

/-- An operation whose names are refused fails as a fault of the caller, and changes nothing. -/
theorem effect_of_refused {op : Operation} (h : op.Refused s) (t : Contents) :
    ∃ why, s.effect t op = ⟨.error (.validation why), t⟩ := by
  cases op with
  | set c k d =>
    obtain ⟨why, ha⟩ := address_of_refused h
    exact ⟨why, by simp only [effect, setEffect, ha]⟩
  | get c k =>
    obtain ⟨why, ha⟩ := address_of_refused h
    exact ⟨why, by simp only [effect, getEffect, ha]⟩
  | delete c k =>
    obtain ⟨why, ha⟩ := address_of_refused h
    exact ⟨why, by simp only [effect, deleteEffect, ha]⟩
  | list c limit page =>
    exact ⟨.emptyCollection, by simp only [effect, listEffect, collectionName_of_refused h]⟩
  | dropCollection c =>
    exact ⟨.emptyCollection, by simp only [effect, dropEffect, collectionName_of_refused h]⟩
  | collections | flush => exact h.elim

theorem not_refused_of_isOk {op : Operation} {t : Contents}
    (h : (s.effect t op).answer.isOk = true) : ¬op.Refused s := by
  intro hr
  obtain ⟨why, he⟩ := effect_of_refused hr t
  rw [he] at h
  cases h

/-! ### What operations do whose names are not refused -/

theorem effect_set {d : Document} (h : ¬(Operation.set name key d).Refused s) (t : Contents) :
    s.effect t (.set name key d) = ⟨.ok .done, t.put (s.meant name) key d⟩ := by
  simp only [effect, setEffect, address_of_not_refused h]

theorem effect_delete_of_none {t : Contents} (h : ¬(Operation.delete name key).Refused s)
    (ht : t.get? (s.meant name) = none) :
    s.effect t (.delete name key) = ⟨.error (.collectionNotFound (s.meant name)), t⟩ := by
  simp only [effect, deleteEffect, address_of_not_refused h, ht]

theorem effect_delete_of_some {t : Contents} {table : Collection}
    (h : ¬(Operation.delete name key).Refused s) (ht : t.get? (s.meant name) = some table) :
    s.effect t (.delete name key) =
      if table.contains key then ⟨.ok (.removed true), t.insert (s.meant name) (table.erase key)⟩
      else ⟨.ok (.removed false), t⟩ := by
  simp only [effect, deleteEffect, address_of_not_refused h, ht]

theorem effect_dropCollection (h : ¬(Operation.dropCollection name).Refused s) (t : Contents) :
    s.effect t (.dropCollection name) =
      if t.contains (s.meant name) then ⟨.ok (.dropped true), t.erase (s.meant name)⟩
      else ⟨.ok (.dropped false), t⟩ := by
  simp only [effect, dropEffect, collectionName_of_not_refused h]

end Settings

/-! ## Changes -/

inductive Change
  | stored (collection key : String) (d : Document)
  | removed (collection key : String)
  | dropped (collection : String)
  deriving DecidableEq

/-- What the operation changes, if it succeeds. -/
def Settings.change? (s : Settings) : Operation → Option Change
  | .set c k d => some (.stored (s.meant c) k d)
  | .delete c k => some (.removed (s.meant c) k)
  | .dropCollection c => some (.dropped (s.meant c))
  | .get .. | .list .. | .collections | .flush => none

namespace Change

/-- The change decides what is found under the key. -/
def Concerns (collection key : String) : Change → Prop
  | .stored c k _ | .removed c k => c = collection ∧ k = key
  | .dropped c => c = collection

instance (collection key : String) : DecidablePred (Concerns collection key)
  | .stored c k _ | .removed c k => inferInstanceAs (Decidable (c = collection ∧ k = key))
  | .dropped c => inferInstanceAs (Decidable (c = collection))

/-- What is found after the change under a key that it concerns. -/
def outcome : Change → Option Document
  | .stored _ _ d => some d
  | .removed .. | .dropped _ => none

/-- The collection exists after the change, whether or not it did before. -/
def Creates (collection : String) : Change → Prop
  | .stored c _ _ => c = collection
  | .removed .. | .dropped _ => False

theorem eq_stored_iff {x : Change} {c k : String} {d : Document} :
    x = .stored c k d ↔ x.Concerns c k ∧ x.outcome = some d := by
  cases x <;> simp [Concerns, outcome, and_assoc]

end Change

section Effects

variable {s : Settings} {t : Contents} {op : Operation} {x : Change}

/-- An operation that makes no change, or fails, leaves the contents as they are. -/
theorem contents_effect_of_no_change
    (h : (s.effect t op).answer.isOk = true → s.change? op = none) :
    (s.effect t op).contents = t := by
  by_cases hf : op = .flush
  · subst hf
    rfl
  · apply effect_contents_of_not_writes
    cases hr : (s.effect t op).answer with
    | error e => exact op.writes_error .auto e
    | ok answer =>
      have hx := h (by rw [hr]; rfl)
      cases op with
      | set | delete | dropCollection => cases hx
      | get | list | collections => rfl
      | flush => exact absurd rfl hf

theorem exists_collection_of_delete {name key : String}
    (h : (s.effect t (.delete name key)).answer.isOk = true) :
    ∃ table, t.get? (s.meant name) = some table := by
  cases hg : t.get? (s.meant name) with
  | some table => exact ⟨table, rfl⟩
  | none =>
    rw [Settings.effect_delete_of_none (Settings.not_refused_of_isOk h) hg] at h
    cases h

/-- What is found under a key after an operation that succeeds is told by its change. -/
theorem document?_effect (hx : s.change? op = some x)
    (h : (s.effect t op).answer.isOk = true) (c k : String) :
    (s.effect t op).contents.document? c k =
      if x.Concerns c k then x.outcome else t.document? c k := by
  have hr := Settings.not_refused_of_isOk h
  cases op with
  | set name key d =>
    cases hx
    rw [Settings.effect_set hr]
    exact Contents.document?_put_eq t _ key d c k
  | delete name key =>
    cases hx
    obtain ⟨table, hg⟩ := exists_collection_of_delete h
    rw [Settings.effect_delete_of_some hr hg]
    split
    · exact Contents.document?_insert_erase hg key c k
    · next hk =>
      show t.document? c k = if s.meant name = c ∧ key = k then none else t.document? c k
      split
      · next heq =>
        obtain ⟨rfl, rfl⟩ := heq
        rw [Contents.document?, hg]
        simpa [Table.contains] using hk
      · rfl
  | dropCollection name =>
    cases hx
    rw [Settings.effect_dropCollection hr]
    split
    · exact Contents.document?_erase t _ c k
    · next hc =>
      show t.document? c k = if s.meant name = c then none else t.document? c k
      split
      · next heq =>
        subst heq
        have hnone : t.get? (s.meant name) = none := by simpa [Table.contains] using hc
        rw [Contents.document?, hnone]
        rfl
      · rfl
  | get | list | collections | flush => cases hx

/-- The change that the operation has made, by its answer: to remove what is not there changes
nothing. -/
def Settings.made? (s : Settings) (op : Operation) (r : Except StoreError Answer) : Option Change :=
  if op.writes .auto r then s.change? op else none

theorem contents_effect_of_not_made (h : s.made? op (s.effect t op).answer = none) :
    (s.effect t op).contents = t := by
  cases hw : op.writes .auto (s.effect t op).answer with
  | false => exact effect_contents_of_not_writes hw
  | true =>
    rw [Settings.made?, if_pos hw] at h
    exact contents_effect_of_no_change fun _ => h

theorem document?_effect_of_made (h : s.made? op (s.effect t op).answer = some x)
    (c k : String) :
    (s.effect t op).contents.document? c k =
      if x.Concerns c k then x.outcome else t.document? c k := by
  unfold Settings.made? at h
  split at h
  · next hw =>
    refine document?_effect h ?_ c k
    cases hr : (s.effect t op).answer with
    | error e => rw [hr, op.writes_error] at hw; cases hw
    | ok answer => rfl
  · cases h

/-- Which collections exist after an operation that succeeds is told by its change. -/
theorem contains_effect (hx : s.change? op = some x)
    (h : (s.effect t op).answer.isOk = true) (c : String) :
    (s.effect t op).contents.contains c = true ↔
      x.Creates c ∨ x ≠ .dropped c ∧ t.contains c = true := by
  have hr := Settings.not_refused_of_isOk h
  cases op with
  | set name key d =>
    cases hx
    rw [Settings.effect_set hr, Contents.put, Table.contains_insert]
    by_cases hc : c = s.meant name
    · simp [Change.Creates, hc]
    · simp [Change.Creates, hc, Ne.symm hc]
  | delete name key =>
    cases hx
    obtain ⟨table, hg⟩ := exists_collection_of_delete h
    rw [Settings.effect_delete_of_some hr hg]
    split
    · rw [Table.contains_insert]
      by_cases hc : c = s.meant name
      · simp [Change.Creates, hc, Table.contains, hg]
      · simp [Change.Creates, hc]
    · simp [Change.Creates]
  | dropCollection name =>
    cases hx
    rw [Settings.effect_dropCollection hr]
    split
    · rw [Table.contains_erase]
      by_cases hc : c = s.meant name
      · simp [Change.Creates, hc]
      · simp [Change.Creates, hc, Ne.symm hc]
    · next hc =>
      by_cases heq : c = s.meant name
      · simp [Change.Creates, heq, hc]
      · simp [Change.Creates, Ne.symm heq]
  | get | list | collections | flush => cases hx

end Effects

/-! ## Lists of changes -/

/-- Something of the first kind has happened, and nothing of the second kind since then. -/
def Since {α : Type} (P Q : α → Prop) (past : List α) : Prop :=
  ∃ before x after, past = before ++ x :: after ∧ P x ∧ ∀ y ∈ after, ¬Q y

/-- What stands behind an element of a list that ends in another one. -/
theorem of_concat_eq {α : Type} {past before after : List α} {x y : α}
    (h : past ++ [x] = before ++ y :: after) :
    (after = [] ∧ past = before ∧ x = y) ∨
      ∃ after', after = after' ++ [x] ∧ past = before ++ y :: after' := by
  rcases List.eq_nil_or_concat after with rfl | ⟨after, z, rfl⟩
  · obtain ⟨hpast, hx⟩ := List.append_inj' h rfl
    exact .inl ⟨rfl, hpast, List.singleton_inj.1 hx⟩
  · rw [List.concat_eq_append, ← List.cons_append, ← List.append_assoc] at h
    obtain ⟨hpast, hx⟩ := List.append_inj' h rfl
    obtain rfl := List.singleton_inj.1 hx
    exact .inr ⟨after, List.concat_eq_append, hpast⟩

theorem since_concat {α : Type} {P Q : α → Prop} {past : List α} {x : α} :
    Since P Q (past ++ [x]) ↔ P x ∨ ¬Q x ∧ Since P Q past := by
  constructor
  · rintro ⟨before, y, after, h, hy, hafter⟩
    rcases of_concat_eq h with ⟨-, -, rfl⟩ | ⟨after, rfl, rfl⟩
    · exact .inl hy
    · exact .inr ⟨hafter x (by simp), before, y, after, rfl, hy,
        fun z hz => hafter z (by simp [hz])⟩
  · rintro (hx | ⟨hx, before, y, after, rfl, hy, hafter⟩)
    · exact ⟨past, x, [], rfl, hx, fun _ h => nomatch h⟩
    · refine ⟨before, y, after ++ [x], by simp, hy, fun z hz => ?_⟩
      rcases List.mem_append.1 hz with hz | hz
      · exact hafter z hz
      · exact List.mem_singleton.1 hz ▸ hx

theorem not_since_nil {α : Type} {P Q : α → Prop} : ¬Since P Q [] := by
  rintro ⟨before, x, after, h, -⟩
  simp at h

namespace Change

/-- The collection was stored into, and has not been dropped since. -/
def Created (changes : List Change) (collection : String) : Prop :=
  Since (Creates collection) (· = .dropped collection) changes

/-- The document was the last one to be stored under the key, and has not been removed since,
neither by itself nor with its collection. -/
def Holds (changes : List Change) (collection key : String) (d : Document) : Prop :=
  Since (· = .stored collection key d) (Concerns collection key) changes

theorem created_concat {changes : List Change} {x : Change} {collection : String} :
    Created (changes ++ [x]) collection ↔
      x.Creates collection ∨ x ≠ .dropped collection ∧ Created changes collection :=
  since_concat (P := Creates collection) (Q := (· = dropped collection))

theorem holds_concat {changes : List Change} {x : Change} {collection key : String} {d : Document} :
    Holds (changes ++ [x]) collection key d ↔
      x = .stored collection key d ∨ ¬x.Concerns collection key ∧ Holds changes collection key d :=
  since_concat (P := (· = stored collection key d)) (Q := Concerns collection key)

end Change

/-- The contents are those that the changes have made out of nothing. -/
structure Recorded (changes : List Change) (t : Contents) : Prop where
  contains_iff : ∀ c, t.contains c = true ↔ Change.Created changes c
  document?_iff : ∀ c k d, t.document? c k = some d ↔ Change.Holds changes c k d

theorem recorded_empty : Recorded [] .empty where
  contains_iff _ := iff_of_false Bool.false_ne_true not_since_nil
  document?_iff _ _ _ := iff_of_false (fun h => nomatch h) not_since_nil

/-- An operation that succeeds adds its change, if it makes one. -/
theorem Recorded.effect {changes : List Change} {t : Contents} (h : Recorded changes t)
    (s : Settings) (op : Operation) :
    Recorded
      (changes ++ if (s.effect t op).answer.isOk then (s.change? op).toList else [])
      (s.effect t op).contents := by
  by_cases hok : (s.effect t op).answer.isOk = true
  · rw [if_pos hok]
    cases hx : s.change? op with
    | none =>
      rw [contents_effect_of_no_change fun _ => hx]
      simpa using h
    | some x =>
      refine ⟨fun c => ?_, fun c k d => ?_⟩
      · rw [contains_effect hx hok, h.contains_iff]
        exact Change.created_concat.symm
      · rw [document?_effect hx hok]
        refine Iff.trans ?_ Change.holds_concat.symm
        rw [Change.eq_stored_iff]
        by_cases hc : x.Concerns c k
        · simp [hc]
        · simp only [hc, if_false, false_and, not_false_eq_true, true_and, false_or]
          exact h.document?_iff c k d
  · rw [if_neg hok, contents_effect_of_no_change fun h => absurd h hok]
    simpa using h

end JsonCabinet
