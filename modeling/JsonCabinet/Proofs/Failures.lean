import JsonCabinet.Proofs.Changes
import JsonCabinet.Proofs.Steps

/-!
# What failures leave

An operation fails because its names are refused, because its collection is not there, or because
of the file, and what it leaves behind depends on which of these it was (`Outcome.Leaves`). A
change that cannot be written is in memory nevertheless, and a read that finds no collection has
taken over the file; after any other failure the store is as it was. No failure changes a file:
the operation has its effect in memory or none (`conclude_error`), and writing leaves nothing
behind if it does not succeed (`persist_error`).
-/

namespace JsonCabinet

open Files

namespace Store

/-- The same store without a file. -/
def detached (s : Store) : Store := { s with settings := { s.settings with backing := .memory } }

/-- The operation has had its effect in memory: that of a success without a file, which is the
same whatever the files are. -/
structure Changed (s : Store) (op : Operation) (after : Store) : Prop where
  succeeds : ∃ answer, (s.detached.perform .fresh op).result = .ok answer
  settings : after.settings = s.settings
  contents : after.contents = (s.detached.perform .fresh op).store.contents
  whatever : ∀ fs, (s.perform fs op).store = after

/-- The store has taken over what its file holds, if it has a file. -/
def TakesOver (s : Store) (fs : FileSystem) (after : Store) : Prop :=
  match s.path? with
  | none => after = s
  | some p => ∃ t, Snapshot.load fs p = .ok t ∧ after = { s with contents := s.contents.merge t }

end Store

/-- What an operation leaves behind that has failed with this error. -/
def Outcome.Leaves (s : Store) (fs : FileSystem) (op : Operation) (o : Outcome Answer) :
    StoreError → Prop
  | .validation _ | .serialization _ => o.store = s ∧ o.files = fs
  | .collectionNotFound _ => o.files = fs ∧ match op with
    | .get _ _ => s.TakesOver fs o.store
    | _ => o.store = s
  | .io _ => fs.Unchanged o.files ∧ match op with
    | .set _ _ _ | .delete _ _ | .dropCollection _ => s.Changed op o.store
    | _ => o.store = s
  | .itemNotFound _ _ | .config _ | .runtime _ => False

/-- An effect fails for its names, or because the collection is not there, and is none then. -/
theorem effect_error {s : Settings} {t : Contents} {op : Operation} {e : StoreError}
    (h : (s.effect t op).answer = .error e) :
    (s.effect t op).contents = t ∧
      ((op.Refused s ∧ ∃ why, e = .validation why) ∨ ∃ c, e = .collectionNotFound c) := by
  refine ⟨effect_contents_of_not_writes (h ▸ op.writes_error .auto e), ?_⟩
  by_cases hr : op.Refused s
  · obtain ⟨why, he⟩ := Settings.effect_of_refused hr t
    rw [he] at h
    cases h
    exact .inl ⟨hr, why, rfl⟩
  · right
    cases op with
    | set c k d =>
      rw [Settings.effect_set hr] at h
      cases h
    | get c k =>
      simp only [Settings.effect, Settings.getEffect, Settings.address_of_not_refused hr] at h
      split at h
      · cases h
        exact ⟨_, rfl⟩
      · cases h
    | delete c k =>
      cases hc : t.get? (s.meant c) with
      | none =>
        rw [Settings.effect_delete_of_none hr hc] at h
        cases h
        exact ⟨_, rfl⟩
      | some table =>
        rw [Settings.effect_delete_of_some hr hc] at h
        split at h <;> cases h
    | list c limit page =>
      simp only [Settings.effect, Settings.listEffect,
        Settings.collectionName_of_not_refused hr] at h
      split at h
      · cases h
        exact ⟨_, rfl⟩
      · cases h
    | dropCollection c =>
      rw [Settings.effect_dropCollection hr] at h
      split at h <;> cases h
    | collections | flush => cases h

namespace Store

variable {s : Store} {fs fs' : FileSystem} {op : Operation} {e : StoreError}

/-- A snapshot that cannot be written leaves no trace. -/
theorem persist_error (h : s.persist fs = (.error e, fs')) :
    (∃ why, e = .io why) ∧ fs.Unchanged fs' := by
  unfold persist at h
  split at h
  · cases h
  · split at h
    · cases h
    · next hr =>
      cases h
      exact ⟨⟨_, rfl⟩, FileSystem.unchanged_of_replaceFile hr⟩

/-- An operation fails before it has had any effect, or because its effect cannot be written. -/
theorem conclude_error (h : (s.conclude fs op).result = .error e) :
    ((s.settings.effect s.contents op).answer = .error e ∧ (s.conclude fs op).store = s ∧
      (s.conclude fs op).files = fs) ∨
    ((∃ why, e = .io why) ∧ (∃ answer, (s.settings.effect s.contents op).answer = .ok answer) ∧
      op.writes s.settings.flush (s.settings.effect s.contents op).answer = true ∧
      fs.Unchanged (s.conclude fs op).files) := by
  cases ha : (s.settings.effect s.contents op).answer with
  | error e' =>
    have hnot : op.writes s.settings.flush (.error e') = false := op.writes_error _ e'
    rw [conclude, ha, hnot] at h ⊢
    cases h
    refine .inl ⟨rfl, ?_, rfl⟩
    rw [(effect_error ha).1]
    rfl
  | ok answer =>
    rw [conclude, ha] at h ⊢
    unfold deliver at h ⊢
    cases hw : op.writes s.settings.flush (.ok answer) with
    | false =>
      rw [hw] at h
      cases h
    | true =>
      rw [hw] at h
      simp only [if_true] at h ⊢
      split at h
      · cases h
      · next hp =>
        cases h
        obtain ⟨hio, hsame⟩ := persist_error hp
        exact .inr ⟨hio, ⟨answer, rfl⟩, trivial, by simpa only [hp] using hsame⟩

/-- An operation that does not read the file has its effect in memory, whatever the files are. -/
theorem changed_of_effect {answer : Answer} (hop : ∀ c k, op ≠ .get c k)
    (h : (s.settings.effect s.contents op).answer = .ok answer) (fs : FileSystem) :
    s.Changed op (s.perform fs op).store := by
  have hperform : ∀ fs, (s.perform fs op).store =
      { s with contents := (s.settings.effect s.contents op).contents } := by
    intro fs
    rw [perform_eq fun c k hget => absurd hget (hop c k), conclude_store]
  have halike : s.settings.Alike s.detached.settings := ⟨rfl, rfl, rfl⟩
  have hdetached : s.detached.perform .fresh op = _ := perform_memory rfl op
  rw [halike.effect_eq] at hdetached
  refine ⟨⟨answer, ?_⟩, ?_, ?_, fun gs => ?_⟩
  · rw [hdetached]
    exact h
  · rw [hperform]
  · rw [hperform, hdetached]
    rfl
  · rw [hperform, hperform]

theorem takesOver_of_reload {after : Store} (h : s.reload fs = .ok after) :
    s.TakesOver fs after := by
  unfold reload at h
  unfold TakesOver
  cases hp : s.path? with
  | none =>
    rw [hp] at h
    cases h
    rfl
  | some p =>
    simp only [hp] at h
    split at h
    · cases h
    · next t ht =>
      cases h
      exact ⟨t, ht, rfl⟩

theorem reload_error (h : s.reload fs = .error e) :
    (∃ why, e = .io why) ∨ ∃ why, e = .serialization why := by
  unfold reload Snapshot.load at h
  split at h
  · cases h
  · split at h
    · next hl =>
      cases h
      split at hl
      · cases hl
        exact .inl ⟨_, rfl⟩
      · split at hl
        · cases hl
          exact .inr ⟨_, rfl⟩
        · cases hl
    · cases h

theorem get_leaves {collection key : String}
    (h : (s.perform fs (.get collection key)).result = .error e) :
    (s.perform fs (.get collection key)).Leaves s fs (.get collection key) e := by
  by_cases hr : Operation.Refused s.settings (.get collection key)
  · obtain ⟨why, ha⟩ := Settings.address_of_refused hr
    simp only [perform, get, ha] at h ⊢
    cases h
    exact ⟨rfl, rfl⟩
  · have ha := Settings.address_of_not_refused hr
    cases hl : s.reload fs with
    | error e' =>
      rw [perform_get_of_reload_error ha hl] at h ⊢
      cases h
      obtain ⟨why, rfl⟩ | ⟨why, rfl⟩ := reload_error hl
      · exact ⟨.refl fs, rfl⟩
      · exact ⟨rfl, rfl⟩
    | ok s' =>
      rw [perform_get_eq ha hl] at h ⊢
      obtain ⟨heffect, hstore, hfiles⟩ | ⟨-, -, hwrites, -⟩ := conclude_error h
      · obtain ⟨-, ⟨hrefused, -⟩ | ⟨c, rfl⟩⟩ := effect_error heffect
        · rw [reload_settings hl] at hrefused
          exact absurd hrefused hr
        · refine ⟨hfiles, ?_⟩
          rw [hstore]
          exact takesOver_of_reload hl
      · cases hwrites

/-- Whatever an operation fails for, it leaves behind what its error tells. -/
theorem perform_leaves (h : (s.perform fs op).result = .error e) :
    (s.perform fs op).Leaves s fs op e := by
  by_cases hget : ∃ c k, op = .get c k
  · obtain ⟨c, k, rfl⟩ := hget
    exact get_leaves h
  · have hop : ∀ c k, op ≠ .get c k := fun c k hop => hget ⟨c, k, hop⟩
    have heq : s.perform fs op = s.conclude fs op :=
      perform_eq fun c k hget => absurd hget (hop c k)
    rw [heq] at h ⊢
    obtain ⟨heffect, hstore, hfiles⟩ | ⟨⟨why, rfl⟩, ⟨answer, heffect⟩, hwrites, hsame⟩ :=
      conclude_error h
    · obtain ⟨-, ⟨-, why, rfl⟩ | ⟨c, rfl⟩⟩ := effect_error heffect
      · exact ⟨hstore, hfiles⟩
      · refine ⟨hfiles, ?_⟩
        cases op with
        | get c k => exact absurd rfl (hop c k)
        | _ => exact hstore
    · refine ⟨hsame, ?_⟩
      rw [← heq]
      cases op with
      | get c k => exact absurd rfl (hop c k)
      | set | delete | dropCollection => exact changed_of_effect hop heffect fs
      | list | collections => cases hwrites
      | flush =>
        rw [heq, conclude_store]
        rfl

/-- What a failure leaves behind is told by its error, for an operation in whatever state the store
and the files are. A store that cannot be opened has changed and removed nothing that was there. -/
theorem failures_leave (s : Store) (fs : FileSystem) :
    (∀ op e, (s.perform fs op).result = .error e → (s.perform fs op).Leaves s fs op e) ∧
    ∀ settings e fs', openWith settings fs = (.error e, fs') →
      ∀ loc node, fs.node? loc = some node → fs'.node? loc = some node := by
  refine ⟨fun op e h => perform_leaves h, fun settings e fs' h loc node hn => ?_⟩
  have hgrows := grows_openWith settings fs
  rw [h] at hgrows
  exact hgrows.node?_eq hn

/-- The directory of the file is not there, so that nothing can be written. -/
def adrift : Store :=
  ⟨{ Settings.initial with backing := .file ⟨false, ["gone", "db.json"]⟩ }, .empty⟩

theorem adrift_set_leaves :
    (adrift.perform .fresh (.set "c" "k" one)).result = .error (.io .notFound) ∧
    FileSystem.fresh.Unchanged (adrift.perform .fresh (.set "c" "k" one)).files ∧
    adrift.Changed (.set "c" "k" one) (adrift.perform .fresh (.set "c" "k" one)).store := by
  have h : (adrift.perform .fresh (.set "c" "k" one)).result = .error (.io .notFound) := by cbv
  exact ⟨h, (failures_leave adrift .fresh).1 _ _ h⟩

end Store

end JsonCabinet
