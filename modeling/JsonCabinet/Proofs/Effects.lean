import JsonCabinet.Operation
import JsonCabinet.Proofs.Contents

/-!
# What operations mean

What an operation answers, and what it makes of the contents, does not depend on the files
(`Settings.effect`), only on how names and pages are treated (`Settings.Alike.effect_eq`). Any
store gives this answer with these contents, once it has written what is due (`perform_eq`). Only a
read of a store with a file depends on more: it takes over what the file holds (`perform_get_eq`).
-/

namespace JsonCabinet

open Files

/-! ## Effects -/

/-- An answer, with the contents after it. -/
structure Effect where
  answer : Except StoreError Answer
  contents : Contents

namespace Settings

def setEffect (s : Settings) (t : Contents) (collection key : String) (d : Document) : Effect :=
  match s.address collection key with
  | .error e => ⟨.error e, t⟩
  | .ok (c, k) => ⟨.ok .done, t.put c k d⟩

def getEffect (s : Settings) (t : Contents) (collection key : String) : Effect :=
  match s.address collection key with
  | .error e => ⟨.error e, t⟩
  | .ok (c, k) => match t.get? c with
    | none => ⟨.error (.collectionNotFound c), t⟩
    | some table => ⟨.ok (.document (table.get? k)), t⟩

def deleteEffect (s : Settings) (t : Contents) (collection key : String) : Effect :=
  match s.address collection key with
  | .error e => ⟨.error e, t⟩
  | .ok (c, k) => match t.get? c with
    | none => ⟨.error (.collectionNotFound c), t⟩
    | some table =>
      if table.contains k then ⟨.ok (.removed true), t.insert c (table.erase k)⟩
      else ⟨.ok (.removed false), t⟩

def listEffect (s : Settings) (t : Contents) (collection : String) (limit page : Int) : Effect :=
  match s.collectionName collection with
  | .error e => ⟨.error e, t⟩
  | .ok c => match t.get? c with
    | none => ⟨.error (.collectionNotFound c), t⟩
    | some table =>
      ⟨.ok (.page ⟨(PageWindow.clamp limit page s.maxPageSize).slice table, table.size⟩), t⟩

def dropEffect (s : Settings) (t : Contents) (collection : String) : Effect :=
  match s.collectionName collection with
  | .error e => ⟨.error e, t⟩
  | .ok c =>
    if t.contains c then ⟨.ok (.dropped true), t.erase c⟩ else ⟨.ok (.dropped false), t⟩

/-- What an operation means for the contents of a store. -/
def effect (s : Settings) (t : Contents) : Operation → Effect
  | .set c k d => s.setEffect t c k d
  | .get c k => s.getEffect t c k
  | .delete c k => s.deleteEffect t c k
  | .list c limit page => s.listEffect t c limit page
  | .dropCollection c => s.dropEffect t c
  | .collections => ⟨.ok (.names t.names), t⟩
  | .flush => ⟨.ok .done, t⟩

end Settings

/-- The operation has made a snapshot due, by its answer and the policy of the store. -/
def Operation.writes (policy : FlushPolicy) : Operation → Except StoreError Answer → Bool
  | .set .., .ok _ => policy = .auto
  | .delete .., .ok (.removed wasThere) => wasThere && policy = .auto
  | .dropCollection .., .ok (.dropped wasThere) => wasThere && policy = .auto
  | .flush, .ok _ => true
  | _, _ => false

theorem Operation.writes_error (policy : FlushPolicy) (op : Operation) (e : StoreError) :
    op.writes policy (.error e) = false := by
  cases op <;> rfl

/-! ## Settings that do not matter -/

/-- Names and pages are treated in the same way. -/
structure Settings.Alike (a b : Settings) : Prop where
  maxPageSize : b.maxPageSize = a.maxPageSize
  defaultCollection : b.defaultCollection = a.defaultCollection
  emptyNames : b.emptyNames = a.emptyNames

namespace Settings.Alike

variable {a b : Settings}

theorem collectionName_eq (h : a.Alike b) (name : String) :
    b.collectionName name = a.collectionName name := by
  rw [collectionName, collectionName, h.emptyNames, h.defaultCollection]

theorem address_eq (h : a.Alike b) (collection key : String) :
    b.address collection key = a.address collection key := by
  rw [address, address, h.collectionName_eq]

theorem validate_eq (h : a.Alike b) : b.validate = a.validate := by
  rw [validate, validate, h.maxPageSize, h.emptyNames, h.defaultCollection]

theorem effect_eq (h : a.Alike b) (t : Contents) (op : Operation) :
    b.effect t op = a.effect t op := by
  cases op with
  | set c k d => rw [effect, effect, setEffect, setEffect, h.address_eq]
  | get c k => rw [effect, effect, getEffect, getEffect, h.address_eq]
  | delete c k => rw [effect, effect, deleteEffect, deleteEffect, h.address_eq]
  | list c limit page =>
    rw [effect, effect, listEffect, listEffect, h.collectionName_eq, h.maxPageSize]
  | dropCollection c => rw [effect, effect, dropEffect, dropEffect, h.collectionName_eq]
  | collections | flush => rfl

end Settings.Alike

/-- A read of an existing collection answers what is found there under the key. -/
theorem effect_get {s : Settings} {collection key : String} {address : String × String}
    (ha : s.address collection key = .ok address) (t : Contents) :
    s.effect t (.get collection key) =
      ⟨if t.contains address.1 then .ok (.document (t.document? address.1 address.2))
        else .error (.collectionNotFound address.1), t⟩ := by
  cases hg : t.get? address.1 with
  | none =>
    simp only [Settings.effect, Settings.getEffect, ha, hg, Table.contains]
    rfl
  | some table =>
    simp only [Settings.effect, Settings.getEffect, ha, hg, Table.contains, Contents.document?]
    rfl

/-- What changes the contents makes a snapshot due, under the automatic policy. -/
theorem effect_contents_of_not_writes {s : Settings} {t : Contents} {op : Operation}
    (h : op.writes .auto (s.effect t op).answer = false) : (s.effect t op).contents = t := by
  cases op with
  | set c k d =>
    simp only [Settings.effect, Settings.setEffect] at h ⊢
    split
    · rfl
    · next ha => rw [ha] at h; cases h
  | get c k =>
    simp only [Settings.effect, Settings.getEffect]
    split
    · rfl
    · split <;> rfl
  | delete c k =>
    simp only [Settings.effect, Settings.deleteEffect] at h ⊢
    split
    · rfl
    · next ha =>
      split
      · rfl
      · next hc =>
        split
        · next hk => simp only [ha, hc, hk, if_true] at h; cases h
        · rfl
  | list c limit page =>
    simp only [Settings.effect, Settings.listEffect]
    split
    · rfl
    · split <;> rfl
  | dropCollection c =>
    simp only [Settings.effect, Settings.dropEffect] at h ⊢
    split
    · rfl
    · next hn =>
      split
      · next hc => simp only [hn, hc, if_true] at h; cases h
      · rfl
  | collections | flush => rfl

/-! ## Stores -/

namespace Store

variable {s : Store} {fs : FileSystem} {p : Path}

/-- Answers once the snapshot is written, if it is due. -/
def deliver (s : Store) (fs : FileSystem) (due : Bool) (answer : Except StoreError Answer) :
    Outcome Answer :=
  if due then
    match s.persist fs with
    | (.ok _, fs) => ⟨answer, s, fs⟩
    | (.error e, fs) => ⟨.error e, s, fs⟩
  else ⟨answer, s, fs⟩

theorem answerWritten_map {α : Type} (answer : α) (f : α → Answer) :
    (s.answerWritten fs answer).map f = s.deliver fs true (.ok (f answer)) := by
  unfold answerWritten deliver
  rw [if_pos rfl]
  cases s.persist fs with
  | mk result fs => cases result <;> rfl

theorem persist_memory (h : s.settings.backing = .memory) : s.persist fs = (.ok (), fs) := by
  simp only [persist, path?, h]

theorem deliver_memory (h : s.settings.backing = .memory) (due : Bool)
    (answer : Except StoreError Answer) : s.deliver fs due answer = ⟨answer, s, fs⟩ := by
  cases due with
  | false => rfl
  | true => simp only [deliver, persist_memory h, if_true]

theorem answerChanged_map {α : Type} (answer : α) (f : α → Answer) :
    (s.answerChanged fs answer).map f =
      s.deliver fs (decide (s.settings.flush = .auto)) (.ok (f answer)) := by
  cases hb : s.settings.backing with
  | memory =>
    have hnot : s.settings.writesThrough = false := by
      simp [Settings.writesThrough, hb, Backing.isMemory]
    simp only [answerChanged, hnot, deliver_memory hb]
    rfl
  | file p =>
    have hauto : s.settings.writesThrough = decide (s.settings.flush = .auto) := by
      simp [Settings.writesThrough, hb, Backing.isMemory]
    rw [answerChanged, hauto]
    cases hd : decide (s.settings.flush = .auto) with
    | true => exact answerWritten_map answer f
    | false => rfl

/-- The store after the effect of an operation, which is answered when what is due is written. -/
def conclude (s : Store) (fs : FileSystem) (op : Operation) : Outcome Answer :=
  let e := s.settings.effect s.contents op
  deliver { s with contents := e.contents } fs (op.writes s.settings.flush e.answer) e.answer

theorem deliver_store (s : Store) (fs : FileSystem) (due : Bool)
    (answer : Except StoreError Answer) : (s.deliver fs due answer).store = s := by
  unfold deliver
  split
  · split <;> rfl
  · rfl

/-- A change stays in memory, whether or not it could be written. -/
theorem conclude_store (s : Store) (fs : FileSystem) (op : Operation) :
    (s.conclude fs op).store =
      { s with contents := (s.settings.effect s.contents op).contents } :=
  deliver_store _ fs _ _

theorem reload_settings {s' : Store} (h : s.reload fs = .ok s') : s'.settings = s.settings := by
  unfold reload at h
  split at h
  · cases h
    rfl
  · split at h
    · cases h
    · cases h
      rfl

/-- A read has its effect on the store that has taken over what the file holds. -/
theorem perform_get_eq {s' : Store} {collection key : String} {address : String × String}
    (ha : s.settings.address collection key = .ok address) (h : s.reload fs = .ok s') :
    s.perform fs (.get collection key) = s'.conclude fs (.get collection key) := by
  have ha' : s'.settings.address collection key = .ok address := by rw [reload_settings h, ha]
  simp only [perform, get, conclude, deliver, ha, ha', h, Settings.effect, Settings.getEffect,
    lookup]
  cases s'.contents.get? address.1 with
  | none => rfl
  | some table => rfl

/-- A read whose names are refused takes nothing over. -/
theorem perform_get_of_error {collection key : String} {e : StoreError}
    (ha : s.settings.address collection key = .error e) :
    s.perform fs (.get collection key) = s.conclude fs (.get collection key) := by
  simp only [perform, get, conclude, deliver, ha, Settings.effect, Settings.getEffect]
  rfl

/-- A read that cannot take over what the file holds fails, and changes nothing. -/
theorem perform_get_of_reload_error {collection key : String} {address : String × String}
    {e : StoreError} (ha : s.settings.address collection key = .ok address)
    (h : s.reload fs = .error e) : s.perform fs (.get collection key) = ⟨.error e, s, fs⟩ := by
  simp only [perform, get, ha, h]
  rfl

/-- A read of a store with nothing to take over has its effect. -/
theorem perform_get_of_reload (h : s.reload fs = .ok s) (collection key : String) :
    s.perform fs (.get collection key) = s.conclude fs (.get collection key) := by
  cases ha : s.settings.address collection key with
  | error e => exact perform_get_of_error ha
  | ok address => exact perform_get_eq ha h

/-- An operation that does not depend on what the file holds has its effect, and then the snapshot
is written if it is due. -/
theorem perform_eq {op : Operation} (h : ∀ c k, op = .get c k → s.reload fs = .ok s) :
    s.perform fs op = s.conclude fs op := by
  cases op with
  | set c k d =>
    simp only [perform, set, conclude, Settings.effect, Settings.setEffect]
    cases s.settings.address c k with
    | error e => rfl
    | ok address => exact answerChanged_map () fun _ => .done
  | get c k => exact perform_get_of_reload (h c k rfl) c k
  | delete c k =>
    simp only [perform, delete, conclude, Settings.effect, Settings.deleteEffect]
    cases s.settings.address c k with
    | error e => rfl
    | ok address =>
      simp only
      cases s.contents.get? address.1 with
      | none => rfl
      | some table =>
        simp only
        split
        · rw [answerChanged_map]
          simp [Operation.writes]
        · rw [Operation.writes]
          rfl
  | list c limit page =>
    simp only [perform, list, conclude, Settings.effect, Settings.listEffect]
    cases s.settings.collectionName c with
    | error e => rfl
    | ok name =>
      simp only
      cases s.contents.get? name with
      | none => rfl
      | some table => rfl
  | dropCollection c =>
    simp only [perform, dropCollection, conclude, Settings.effect, Settings.dropEffect]
    cases s.settings.collectionName c with
    | error e => rfl
    | ok name =>
      simp only
      split
      · rw [answerChanged_map]
        simp [Operation.writes]
      · rw [Operation.writes]
        rfl
  | collections => rfl
  | flush => exact answerWritten_map () fun _ => .done

/-- No operation changes the settings. -/
theorem perform_settings (s : Store) (fs : FileSystem) (op : Operation) :
    (s.perform fs op).store.settings = s.settings := by
  by_cases hget : ∃ c k, op = .get c k
  · obtain ⟨c, k, rfl⟩ := hget
    cases ha : s.settings.address c k with
    | error e => rw [perform_get_of_error ha, conclude_store]
    | ok address =>
      cases hl : s.reload fs with
      | error e => rw [perform_get_of_reload_error ha hl]
      | ok s' => rw [perform_get_eq ha hl, conclude_store, reload_settings hl]
  · rw [perform_eq fun c k hop => absurd ⟨c, k, hop⟩ hget, conclude_store]

theorem reload_memory (h : s.settings.backing = .memory) : s.reload fs = .ok s := by
  simp [reload, path?, h]

/-- A store in memory has the effects of its operations, and no more. -/
theorem perform_memory (h : s.settings.backing = .memory) (op : Operation) :
    s.perform fs op = ⟨(s.settings.effect s.contents op).answer,
      { s with contents := (s.settings.effect s.contents op).contents }, fs⟩ := by
  have hb : ({ s with contents := (s.settings.effect s.contents op).contents } :
      Store).settings.backing = .memory := h
  rw [perform_eq fun _ _ _ => reload_memory h, conclude, deliver_memory hb]

end Store

end JsonCabinet
