import JsonCabinet.Proofs.Pages
import JsonCabinet.Proofs.Unflushed

/-!
# Deletions

What has been deleted is not found again until it is stored again, unless a read brings it back from
the file. This takes a store under the manual policy, whose file has the document still: until it is
flushed, any read at all lays the file over memory. What is kept along a run is that memory has
nothing under the key, and neither has the file once it has been written (`Deleted.act`).
-/

namespace JsonCabinet

open Files

/-! ## Finding nothing -/

/-- The answer tells of no document under this key: a read finds none, there is none to delete, and
a listing does not show it. -/
def Operation.FindsNothing (s : Settings) (c k : String) (r : Except StoreError Answer) :
    Operation → Prop
  | .get name key => s.meant name = c → key = k → ∀ d, r ≠ .ok (.document (some d))
  | .delete name key => s.meant name = c → key = k → r ≠ .ok (.removed true)
  | .list name _ _ => s.meant name = c → ∀ listing, r = .ok (.page listing) →
    listing.items.get? k = none
  | _ => True

section Effects

variable {s : Settings} {t : Contents} {c k : String}

theorem get?_of_document?_eq_none {table : Collection} (h : t.document? c k = none)
    (hc : t.get? c = some table) : table.get? k = none := by
  rw [Contents.document?, hc] at h
  exact h

/-- Contents with nothing under a key tell of no document there. -/
theorem effect_findsNothing (h : t.document? c k = none) (op : Operation) :
    op.FindsNothing s c k (s.effect t op).answer := by
  by_cases hr : op.Refused s
  · obtain ⟨why, he⟩ := Settings.effect_of_refused hr t
    rw [he]
    cases op with
    | get | delete => exact fun _ _ => by simp
    | list => exact fun _ _ hpage => nomatch hpage
    | _ => trivial
  · cases op with
    | get name key =>
      rintro rfl rfl d hd
      rw [effect_get (Settings.address_of_not_refused hr), h] at hd
      split at hd <;> cases hd
    | delete name key =>
      rintro rfl rfl hd
      cases hc : t.get? (s.meant name) with
      | none =>
        rw [Settings.effect_delete_of_none hr hc] at hd
        cases hd
      | some table =>
        rw [Settings.effect_delete_of_some hr hc, Table.contains,
          get?_of_document?_eq_none h hc] at hd
        cases hd
    | list name limit page =>
      rintro rfl listing hpage
      simp only [Settings.effect, Settings.listEffect,
        Settings.collectionName_of_not_refused hr] at hpage
      split at hpage
      · cases hpage
      · next hc =>
        cases hpage
        exact PageWindow.get?_slice _ (get?_of_document?_eq_none h hc)
    | _ => trivial

end Effects

/-! ## What keeps a document deleted -/

/-- Every read among these acts that takes over the file follows a flush among them. -/
def ReadsFollowFlush (acts : List Act) : Prop :=
  ∀ before m after, acts = before ++ m :: after → m.Overlays → ∃ m' ∈ before, m'.input = .flush

theorem ReadsFollowFlush.of_concat {past : List Act} {m : Act}
    (h : ReadsFollowFlush (past ++ [m])) : ReadsFollowFlush past := by
  rintro before m' after rfl hm'
  exact h before m' (after ++ [m]) (by simp) hm'

theorem readsFollowFlush_of_flush {m : Act} (h : m.input = .flush) (acts : List Act) :
    ReadsFollowFlush (m :: acts) := by
  rintro before m' after hsplit hm'
  cases before with
  | nil =>
    obtain ⟨rfl, -⟩ := List.cons.inj hsplit
    rw [Moment.Overlays, h] at hm'
    exact hm'.elim
  | cons first before =>
    obtain ⟨rfl, -⟩ := List.cons.inj hsplit
    exact ⟨m, by simp, h⟩

/-- A document is stored under the key. -/
def Moment.Stores (c k : String) (m : Act) : Prop := ∃ d, m.made? = some (.stored c k d)

/-- Once the act is done, the file of the store has a document under the key. -/
def Moment.LeftInFile (c k : String) (m : Act) : Prop :=
  ∃ p t, m.settings.backing = .file p ∧ Snapshot.load m.outcome.files p = .ok t ∧
    t.document? c k ≠ none

namespace Store

variable {s : Store} {fs fs' : FileSystem} {settings : Settings} {file? : Option Contents}
  {past : List Act} {m : Act} {c k : String}

/-- The file, if there is one, has nothing under the key. -/
def FileLacks (c k : String) (file? : Option Contents) : Prop :=
  ∀ t ∈ file?, t.document? c k = none

/-- After these acts, which have followed a deletion, memory has nothing under the key, and neither
has the file if it had nothing or was flushed. The acts store nothing there, and if the file had
something, they flush it before they read it. -/
def Deleted (c k : String) (lacked : Prop) (past : List Act) (file? : Option Contents) (s : Store) :
    Prop :=
  (∀ m ∈ past, ¬m.Stores c k) → (¬lacked → ReadsFollowFlush past) →
    s.contents.document? c k = none ∧
      ((lacked ∨ ∃ m ∈ past, m.input = .flush) → FileLacks c k file?)

/-- All that the store knows of when it acts has nothing under the key. -/
theorem Deleted.document?_aware {lacked : Prop} (h : Deleted c k lacked past file? m.state.1)
    (hstores : ∀ m ∈ past, ¬m.Stores c k) (hreads : ¬lacked → ReadsFollowFlush (past ++ [m])) :
    (m.state.1.aware file? m.input).document? c k = none := by
  obtain ⟨hmemory, hfile⟩ := h hstores fun hl => (hreads hl).of_concat
  by_cases ho : m.Overlays
  · have hlacks : FileLacks c k file? := by
      by_cases hl : lacked
      · exact hfile (.inl hl)
      · exact hfile (.inr (hreads hl past m [] rfl ho))
    rw [document?_aware_of_takesOver ho, hmemory]
    cases file? with
    | none => rfl
    | some t => rw [Option.bind_some, hlacks t rfl, Option.or_none]
  · rw [aware_of_not_takesOver ho, hmemory]

theorem Deleted.act {lacked : Prop} (h : Deleted c k lacked past file? m.state.1)
    (ha : Alone file? m.state.1 m.state.2) (hclear : m.Clear) :
    Deleted c k lacked (past ++ [m]) (m.state.1.fileAfter file? m.input) m.outcome.store := by
  intro hstores hreads
  have hbefore : ∀ m ∈ past, ¬m.Stores c k := fun m' hm' => hstores m' (by simp [hm'])
  have haware := h.document?_aware hbefore hreads
  have hmemory : m.outcome.store.contents.document? c k = none := by
    by_cases hm : m.Changes c k
    · obtain ⟨x, hx, hc⟩ := hm
      rw [ha.document?_of_made hclear hx hc, Option.eq_none_iff_forall_ne_some]
      intro d hd
      exact hstores m (by simp) ⟨d, by rw [hx, Change.eq_stored_iff.2 ⟨hc, hd⟩]⟩
    · rw [ha.document?_of_not_changes hclear hm, haware]
  refine ⟨hmemory, fun hfile t ht => ?_⟩
  obtain ⟨u, hu, rfl⟩ := Option.map_eq_some_iff.1 ht
  have hstore := (ha.perform hclear).2.1
  rw [Moment.outcome, hstore] at hmemory
  split
  · exact hmemory
  · next hw =>
    obtain ⟨-, hlacks⟩ := h hbefore fun hl => (hreads hl).of_concat
    refine hlacks (hfile.imp_right ?_) u hu
    rintro ⟨m', hm', hf⟩
    rcases List.mem_append.1 hm' with hm' | hm'
    · exact ⟨m', hm', hf⟩
    · rw [List.mem_singleton.1 hm'] at hf
      rw [hf] at hw
      exact absurd rfl hw

/-! ## Runs of a store -/

/-- Right after a deletion there is nothing in memory. -/
theorem document?_of_deletion {name : String} {wasThere : Bool}
    (ha : Alone file? m.state.1 m.state.2) (hclear : m.Clear) (hm : m.input = .delete name k)
    (hr : m.outcome.result = .ok (.removed wasThere)) :
    m.outcome.store.contents.document? (m.settings.meant name) k = none := by
  obtain ⟨hresult, hstore, -⟩ := ha.perform hclear
  have hok : (m.state.1.effectOn file? m.input).answer.isOk = true := by
    rw [← hresult]
    exact hr ▸ rfl
  have hchange : m.settings.change? m.input = some (.removed (m.settings.meant name) k) := by
    rw [hm]
    rfl
  rw [Moment.outcome, hstore]
  exact (document?_effect hchange hok _ k).trans (if_pos ⟨rfl, rfl⟩)

/-- A file that every change is written to has no more than memory has. -/
theorem fileLacks_of_auto (ha : Alone file? m.state.1 m.state.2) (hclear : m.Clear)
    (hcurrent : Current file? m.state.1) (hauto : m.state.1.settings.flush = .auto)
    (h : m.outcome.store.contents.document? c k = none) :
    FileLacks c k (m.state.1.fileAfter file? m.input) := by
  intro t ht
  rw [hcurrent.effectOn (.inr hauto) m.input t ht]
  rwa [Moment.outcome, (ha.perform hclear).2.1] at h

/-- What is in the file of a store, when it is not left there. -/
theorem fileLacks_of_not_leftInFile (ha : Alone file? m.outcome.store m.outcome.files)
    (h : ¬m.LeftInFile c k) : FileLacks c k file? := by
  rintro t rfl
  cases ha with
  | file p hb hl =>
    by_contra hne
    exact h ⟨p, t, m.settings_outcome ▸ hb, hl, hne⟩

/-- This is kept along what follows the deletion. -/
theorem deleted_of_acts {lacked : Prop} (ha : Alone file? s fs) (h : Deleted c k lacked [] file? s)
    {ops : List Operation} (hclear : ∀ m ∈ s.acts fs ops, m.Clear) {later : List Act}
    (hsplit : s.acts fs ops = past ++ m :: later) :
    ∃ file?, Alone file? m.state.1 m.state.2 ∧ m.state.1.settings = s.settings ∧
      Deleted c k lacked past file? m.state.1 :=
  invariant_of_acts
    (J := fun past file? after => after.settings = s.settings ∧ Deleted c k lacked past file? after)
    (fun _ m _ hclear ha h => ⟨m.settings_outcome.trans h.1, h.2.act ha hclear⟩)
    hclear ha ⟨rfl, h⟩ hsplit

/-- A document that has been deleted is not found again before it is stored again, whatever else is
done. Only if the file has it still, which takes the manual policy, the file has to be flushed
before any document is read. -/
theorem deleted_stays_deleted (hopen : openWith settings fs = (.ok s, fs'))
    {ops : List Operation} (hclear : ∀ m ∈ s.acts fs' ops, m.Clear)
    {before between after : List Act} {d : Act}
    (hsplit : s.acts fs' ops = before ++ d :: (between ++ m :: after)) {name : String}
    {wasThere : Bool} (hd : d.input = .delete name k)
    (hr : d.outcome.result = .ok (.removed wasThere))
    (hstores : ∀ m ∈ between, ¬m.Stores (settings.meant name) k)
    (hreads : settings.flush = .manual → d.LeftInFile (settings.meant name) k →
      ReadsFollowFlush (between ++ [m])) :
    m.input.FindsNothing settings (settings.meant name) k m.outcome.result := by
  obtain ⟨file?, had, rfl, hcurrent⟩ := current_of_acts hopen hclear hsplit
  have hdclear : d.Clear := hclear d (by simp [hsplit])
  have hmclear : m.Clear := hclear m (by simp [hsplit])
  have hmemory := document?_of_deletion had hdclear hd hr
  have hafter := (had.perform hdclear).2.2
  let lacked := FileLacks (d.state.1.settings.meant name) k (d.state.1.fileAfter file? d.input)
  have hbegin : Deleted (d.state.1.settings.meant name) k lacked []
      (d.state.1.fileAfter file? d.input) d.outcome.store :=
    fun _ _ => ⟨hmemory, fun hfile => hfile.resolve_right (by simp)⟩
  -- the run goes on from what the deletion has left
  obtain ⟨rest, hrest⟩ := exists_trace_of_split hsplit
  have hrest : d.outcome.store.acts d.outcome.files rest = between ++ m :: after := hrest.symm
  have hrestclear : ∀ m ∈ d.outcome.store.acts d.outcome.files rest, m.Clear := by
    rw [hrest]
    exact fun m hm => hclear m (hsplit ▸ List.mem_append_right _ (List.mem_cons_of_mem _ hm))
  obtain ⟨file?', hm, hmsettings, hdeleted⟩ := deleted_of_acts hafter hbegin hrestclear hrest
  have hflushed : ¬lacked → ReadsFollowFlush (between ++ [m]) := by
    intro hl
    refine hreads ?_ (not_not.1 fun hleft => hl (fileLacks_of_not_leftInFile hafter hleft))
    cases hauto : d.state.1.settings.flush with
    | manual => rfl
    | auto => exact absurd (fileLacks_of_auto had hdclear (hcurrent hauto) hauto hmemory) hl
  have hnone := hdeleted.document?_aware hstores hflushed
  have hresult : m.outcome.result = (m.state.1.effectOn file?' m.input).answer :=
    (hm.perform hmclear).1
  rw [hresult, effectOn, hmsettings.trans d.settings_outcome]
  exact effect_findsNothing hnone m.input

/-- Here the deletion is flushed before the document is looked for. -/
def forgetting : List Operation :=
  [.set "c" "k" one, .flush, .delete "c" "k", .flush, .get "c" "k"]

theorem flushed_deletion_lasts :
    ∃ (past : List Act) (m : Act), acts ⟨inManual, .empty⟩ withDatabase forgetting = past ++ [m] ∧
      m.input = .get "c" "k" ∧ ∀ d, m.outcome.result ≠ .ok (.document (some d)) := by
  have hclear : ∀ m ∈ acts ⟨inManual, .empty⟩ withDatabase forgetting, m.Clear :=
    clear_of_all_isOk (by cbv)
  obtain ⟨storing, flushing, deleting, again, reading, hacts, hdelete, hdeleted, hflush, hmade,
      hread⟩ : ∃ storing flushing deleting again reading : Act,
        acts ⟨inManual, .empty⟩ withDatabase forgetting =
          [storing, flushing] ++ deleting :: ([again] ++ reading :: []) ∧
        deleting.input = .delete "c" "k" ∧ deleting.outcome.result = .ok (.removed true) ∧
        again.input = .flush ∧ again.made? = none ∧ reading.input = .get "c" "k" :=
    ⟨_, _, _, _, _, rfl, rfl, by cbv, rfl, by cbv, rfl⟩
  have hstores : ∀ m ∈ [again], ¬m.Stores "c" "k" := by
    intro m hm
    obtain rfl := List.mem_singleton.1 hm
    rintro ⟨d, hd⟩
    rw [hmade] at hd
    cases hd
  have hnothing := deleted_stays_deleted openWith_inManual hclear hacts hdelete hdeleted hstores
    fun _ _ => readsFollowFlush_of_flush hflush _
  rw [hread] at hnothing
  exact ⟨[storing, flushing, deleting, again], reading, hacts, hread, hnothing rfl rfl⟩

/-- A document that has been deleted in the acts is not found again before it is stored again,
whatever else is done. -/
def KeepsDeleted (settings : Settings) (acts : List Act) : Prop :=
  ∀ before d between m after name k wasThere,
    acts = before ++ d :: (between ++ m :: after) → d.input = .delete name k →
    d.outcome.result = .ok (.removed wasThere) →
    (∀ m ∈ between, ¬m.Stores (settings.meant name) k) →
    m.input.FindsNothing settings (settings.meant name) k m.outcome.result

/-- Without the second flush the file brings the document back. -/
theorem read_undoes_deletion :
    openWith inManual withDatabase = (.ok ⟨inManual, .empty⟩, withDatabase) ∧
      ∃ ops, (∀ m ∈ acts ⟨inManual, .empty⟩ withDatabase ops, m.Clear) ∧
        ¬KeepsDeleted inManual (acts ⟨inManual, .empty⟩ withDatabase ops) := by
  refine ⟨openWith_inManual, [.set "c" "k" one, .flush, .delete "c" "k", .get "c" "k"],
    clear_of_all_isOk (by cbv), fun h => ?_⟩
  obtain ⟨storing, flushing, deleting, reading, hacts, hdelete, hdeleted, hread, hfound⟩ :
      ∃ storing flushing deleting reading : Act,
        acts ⟨inManual, .empty⟩ withDatabase
            [.set "c" "k" one, .flush, .delete "c" "k", .get "c" "k"] =
          [storing, flushing] ++ deleting :: ([] ++ reading :: []) ∧
        deleting.input = .delete "c" "k" ∧ deleting.outcome.result = .ok (.removed true) ∧
        reading.input = .get "c" "k" ∧ reading.outcome.result = .ok (.document (some one)) :=
    ⟨_, _, _, _, rfl, rfl, by cbv, rfl, by cbv⟩
  have hnothing := h _ _ _ _ _ _ _ _ hacts hdelete hdeleted (List.forall_mem_nil _)
  rw [hread] at hnothing
  exact hnothing rfl rfl one hfound

end Store

end JsonCabinet
