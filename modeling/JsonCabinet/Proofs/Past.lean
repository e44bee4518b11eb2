import JsonCabinet.Proofs.Changes
import JsonCabinet.Proofs.Steps

/-!
# A store is known by its past

What a store in memory answers is told by the calls before it and the names they meant
(`Operation.Tells`). What is kept along a run is that the contents are those that the changes made
so far have made out of nothing (`Recorded`); an answer that agrees with such contents agrees with
the changes (`effect_tells`). A call that fails is not one of those that count.
-/

namespace JsonCabinet

open Files Text

/-- The changes that these calls made, each beside its answer; those that failed made none. -/
def changesOf (s : Settings) (past : List (Operation × Except StoreError Answer)) : List Change :=
  past.flatMap fun (op, r) => if r.isOk then (s.change? op).toList else []

theorem changesOf_concat (s : Settings) (past : List (Operation × Except StoreError Answer))
    (op : Operation) (r : Except StoreError Answer) :
    changesOf s (past ++ [(op, r)]) =
      changesOf s past ++ if r.isOk then (s.change? op).toList else [] := by
  simp [changesOf]

/-- The answer to an operation whose names are not refused, told from the changes before it. -/
def Operation.Tells (s : Settings) (past : List Change) (r : Except StoreError Answer) :
    Operation → Prop
  | .set _ _ _ => r = .ok .done
  | .get name k =>
    (r = .error (.collectionNotFound (s.meant name)) ↔ ¬Change.Created past (s.meant name)) ∧
    (∀ d, r = .ok (.document (some d)) ↔ Change.Holds past (s.meant name) k d) ∧
    (r = .ok (.document none) ↔
      Change.Created past (s.meant name) ∧ ∀ d, ¬Change.Holds past (s.meant name) k d)
  | .delete name k =>
    (r = .error (.collectionNotFound (s.meant name)) ↔ ¬Change.Created past (s.meant name)) ∧
    (r = .ok (.removed true) ↔ ∃ d, Change.Holds past (s.meant name) k d) ∧
    (r = .ok (.removed false) ↔
      Change.Created past (s.meant name) ∧ ∀ d, ¬Change.Holds past (s.meant name) k d)
  | .list name _ _ =>
    (r = .error (.collectionNotFound (s.meant name)) ↔ ¬Change.Created past (s.meant name)) ∧
    (Change.Created past (s.meant name) → ∃ listing, r = .ok (.page listing) ∧
      (listing.total : ℕ∞) = {k | ∃ d, Change.Holds past (s.meant name) k d}.encard)
  | .dropCollection name =>
    (r = .ok (.dropped true) ↔ Change.Created past (s.meant name)) ∧
    (r = .ok (.dropped false) ↔ ¬Change.Created past (s.meant name))
  | .collections => ∃ names, r = .ok (.names names) ∧
    names.Pairwise (fun a b => precedes a b) ∧ ∀ c, c ∈ names ↔ Change.Created past c
  | .flush => r = .ok .done

namespace Recorded

variable {changes : List Change} {t : Contents} {c : String}

theorem not_created (h : Recorded changes t) (hc : t.get? c = none) :
    ¬Change.Created changes c := by
  rw [← h.contains_iff, Table.contains, hc]
  exact Bool.false_ne_true

theorem not_holds (h : Recorded changes t) (hc : t.get? c = none) (k : String) (d : Document) :
    ¬Change.Holds changes c k d := by
  rw [← h.document?_iff, Contents.document?, hc]
  intro hd
  cases hd

theorem created {table : Collection} (h : Recorded changes t) (hc : t.get? c = some table) :
    Change.Created changes c := by
  rw [← h.contains_iff, Table.contains, hc]
  rfl

theorem get?_iff {table : Collection} (h : Recorded changes t) (hc : t.get? c = some table)
    (k : String) (d : Document) : table.get? k = some d ↔ Change.Holds changes c k d := by
  rw [← h.document?_iff, Contents.document?, hc]
  rfl

theorem get?_eq_none_iff {table : Collection} (h : Recorded changes t)
    (hc : t.get? c = some table) (k : String) :
    table.get? k = none ↔ ∀ d, ¬Change.Holds changes c k d := by
  simp only [← h.get?_iff hc k, Option.eq_none_iff_forall_ne_some, ne_eq]

end Recorded

/-- The answer that agrees with the contents agrees with the changes that made them. -/
theorem effect_tells {changes : List Change} {t : Contents} {s : Settings} {op : Operation}
    (h : Recorded changes t) (hr : ¬op.Refused s) :
    op.Tells s changes (s.effect t op).answer := by
  cases op with
  | set name k d =>
    simp only [Operation.Tells, Settings.effect, Settings.setEffect,
      Settings.address_of_not_refused hr]
  | get name k =>
    simp only [Operation.Tells, Settings.effect, Settings.getEffect,
      Settings.address_of_not_refused hr]
    cases hc : t.get? (s.meant name) with
    | none => simp [h.not_created hc, h.not_holds hc]
    | some table => simp [h.created hc, h.get?_iff hc, h.get?_eq_none_iff hc]
  | delete name k =>
    simp only [Operation.Tells, Settings.effect, Settings.deleteEffect,
      Settings.address_of_not_refused hr]
    cases hc : t.get? (s.meant name) with
    | none => simp [h.not_created hc, h.not_holds hc]
    | some table =>
      have hlive : table.contains k = true ↔ ∃ d, Change.Holds changes (s.meant name) k d := by
        simp only [Table.contains, Option.isSome_iff_exists, h.get?_iff hc]
      by_cases hk : table.contains k = true
      · simp [hk, h.created hc, hlive.1 hk]
      · simp [hk, h.created hc, not_exists.1 (mt hlive.2 hk)]
  | list name limit page =>
    simp only [Operation.Tells, Settings.effect, Settings.listEffect,
      Settings.collectionName_of_not_refused hr]
    cases hc : t.get? (s.meant name) with
    | none => simp [h.not_created hc]
    | some table =>
      refine ⟨by simp [h.created hc], fun _ => ⟨_, rfl, ?_⟩⟩
      simp only [← h.get?_iff hc]
      exact table.encard_names.symm
  | dropCollection name =>
    simp only [Operation.Tells, Settings.effect, Settings.dropEffect,
      Settings.collectionName_of_not_refused hr]
    split
    · next hc => simp [(h.contains_iff _).1 hc]
    · next hc => simp [mt (h.contains_iff _).2 hc]
  | collections =>
    refine ⟨t.names, rfl, t.pairwise_names, fun c => ?_⟩
    rw [Table.mem_names_iff, ← h.contains_iff, Table.contains, Option.isSome_iff_exists]
  | flush => rfl

namespace Store

variable {s : Store} {fs : FileSystem}

theorem length_run (s : Store) (fs : FileSystem) (ops : List Operation) :
    (s.run fs ops).1.length = ops.length := by
  induction ops generalizing s fs with
  | nil => rfl
  | cons op ops ih => simp [run, ih]

/-- Along a run the contents stay those that the changes so far have made. -/
theorem run_tells (past : List (Operation × Except StoreError Answer)) {ops : List Operation}
    (hb : s.settings.backing = .memory) (h : Recorded (changesOf s.settings past) s.contents)
    {earlier later : List (Operation × Except StoreError Answer)} {op : Operation}
    {r : Except StoreError Answer}
    (hrun : ops.zip (s.run fs ops).1 = earlier ++ (op, r) :: later) :
    (op.Refused s.settings → ∃ why, r = .error (.validation why)) ∧
    (¬op.Refused s.settings → op.Tells s.settings (changesOf s.settings (past ++ earlier)) r) := by
  induction ops generalizing s fs past earlier with
  | nil => simp at hrun
  | cons first ops ih =>
    rw [run, perform_memory hb] at hrun
    obtain ⟨rfl, hcall⟩ | ⟨earlier, rfl, hrest⟩ := List.cons_eq_append_iff.1 hrun
    · obtain ⟨hcall, -⟩ := List.cons.inj hcall
      cases hcall
      refine ⟨fun hr => ?_, fun hr => ?_⟩
      · obtain ⟨why, he⟩ := Settings.effect_of_refused hr s.contents
        exact ⟨why, by rw [he]⟩
      · rw [List.append_nil]
        exact effect_tells h hr
    · have hnext := h.effect s.settings first
      rw [← changesOf_concat] at hnext
      have htold := ih (s := ⟨s.settings, (s.settings.effect s.contents first).contents⟩)
        _ hb hnext hrest
      rwa [List.append_assoc] at htold

/-- A store in memory answers every call by what the calls before it changed. A call whose names
are refused fails as a fault of the caller, and does not count for those after it. -/
theorem answers_told_by_past {settings : Settings} {fs' : FileSystem}
    (hmemory : settings.backing = .memory) (hopen : openWith settings fs = (.ok s, fs'))
    (ops : List Operation) :
    (s.run fs' ops).1.length = ops.length ∧
    ∀ earlier op r later, ops.zip (s.run fs' ops).1 = earlier ++ (op, r) :: later →
      (op.Refused settings → ∃ why, r = .error (.validation why)) ∧
      (¬op.Refused settings → op.Tells settings (changesOf settings earlier) r) := by
  have hs : s = ⟨settings, .empty⟩ := by
    unfold openWith at hopen
    split at hopen
    · cases hopen
    · rw [hmemory] at hopen
      cases hopen
      rfl
  subst hs
  refine ⟨length_run _ fs' ops, fun earlier op r later hrun => ?_⟩
  exact run_tells (s := ⟨settings, .empty⟩) [] hmemory recorded_empty hrun

/-- A document is stored in the collection that the empty name means, and removed again. -/
def emptied : List Operation :=
  [.set "" "k" one, .delete "default" "k", .set "c" "" one, .get "default" "k"]

theorem emptied_told_by_past :
    (inMemory.run .fresh emptied).1.length = 4 ∧
    Operation.Tells .initial [.stored "default" "k" one, .removed "default" "k"]
      (.ok (.document none)) (.get "default" "k") := by
  have hrun : emptied.zip (inMemory.run .fresh emptied).1 =
      [(.set "" "k" one, .ok .done), (.delete "default" "k", .ok (.removed true)),
        (.set "c" "" one, .error (.validation .emptyKey))] ++
      [(.get "default" "k", .ok (.document none))] := by
    cbv
  obtain ⟨hlength, htold⟩ := answers_told_by_past rfl openWith_inMemory emptied
  refine ⟨hlength, (htold _ _ _ _ hrun).2 ?_⟩
  simp [Operation.Refused]

end Store

end JsonCabinet
