import JsonCabinet.Proofs.Failures
import JsonCabinet.Proofs.Traces

/-!
# Deletions that are reported

A store that writes every change at once may fail to write one, which it then has made in memory
alone. So what the file has is in memory too, unless a removal could not be written and nothing has
brought the two together since (`Behind`): neither a snapshot that was written, nor a read, which
takes over the file. Hence a deletion that is reported is in the file, except for one that finds
nothing to delete while such a removal is pending.
-/

namespace JsonCabinet

open Files

/-! ## Files that nobody else changes -/

namespace Files.FileSystem

variable {fs fs' : FileSystem} {p : Path} {b : Bytes}

/-- The file has these bytes, as can be read from it, or it is out of reach, to be written as well
as to be read. -/
def Untouched (fs : FileSystem) (p : Path) (b : Bytes) : Prop :=
  fs.contentOf p = .ok b ∨
    (∀ b', fs.contentOf p ≠ .ok b') ∧ ∀ content fs', fs.replaceFile p content ≠ (.ok (), fs')

/-- The bytes of a file that had these bytes when it was in reach. -/
def bytesOf (fs : FileSystem) (p : Path) (b : Bytes) : Bytes :=
  match fs.contentOf p with
  | .ok b' => b'
  | .error _ => b

theorem bytesOf_of_contentOf {b' : Bytes} (h : fs.contentOf p = .ok b') : fs.bytesOf p b = b' := by
  rw [bytesOf, h]

theorem Untouched.bytesOf_eq (h : fs.Untouched p b) : fs.bytesOf p b = b := by
  rcases h with h | ⟨h, -⟩
  · exact bytesOf_of_contentOf h
  · unfold bytesOf
    split
    · next b' hb => exact absurd hb (h b')
    · rfl

theorem Unchanged.bytesOf_eq (h : fs.Unchanged fs') (p : Path) (b : Bytes) :
    fs'.bytesOf p b = fs.bytesOf p b := by
  cases hb : fs.contentOf p with
  | ok b' => rw [bytesOf_of_contentOf hb, bytesOf_of_contentOf (h.contentOf_eq hb)]
  | error e =>
    unfold bytesOf
    split
    · next b' hb' =>
      rw [h.symm.contentOf_eq hb'] at hb
      cases hb
    · rw [hb]

end Files.FileSystem

/-! ## Attempts -/

/-- An operation, with the files that it meets, the store, and the bytes of its file until then. -/
abbrev Attempt := Moment (Bytes × Store) (FileSystem × Operation)

namespace Moment

def store (m : Attempt) : Store := m.state.2

def operation (m : Attempt) : Operation := m.input.2

def reply (m : Attempt) : Outcome Answer := m.store.perform m.input.1 m.operation

/-- The bytes of the file once the attempt is done. -/
def bytesAfter (p : Path) (m : Attempt) : Bytes := m.reply.files.bytesOf p m.state.1

/-- Since the last attempt nobody else has changed the file. -/
def Untouched (p : Path) (m : Attempt) : Prop := m.input.1.Untouched p m.state.1

/-- A change of this kind was made, and could not be written. -/
def Fails (R : Change → Prop) (m : Attempt) : Prop :=
  ∃ x e, m.store.settings.change? m.operation = some x ∧ R x ∧ m.reply.result = .error (.io e)

/-- A snapshot is written, or a read takes over the file. -/
def Mends (m : Attempt) : Prop :=
  m.operation.writes .auto m.reply.result = true ∨
    m.operation.TakesOver m.store.settings ∧ NoFileError m.reply.result

end Moment

/-- A change of this kind could not be written, and nothing has brought memory and the file together
since. -/
def Pending (R : Change → Prop) (past : List Attempt) : Prop :=
  Since (Moment.Fails R) Moment.Mends past

/-- The change removes what is under the key. -/
def Change.Removes (c k : String) (x : Change) : Prop := x.Concerns c k ∧ x.outcome = none

/-- What merging keeps, and only changes of this kind can end. -/
structure Lasting (H : Contents → Prop) (R : Change → Prop) : Prop where
  merge : ∀ t u, H u → H (Contents.merge t u)
  effect : ∀ (s : Settings) t op, H t →
    H (s.effect t op).contents ∨ ∃ x, s.change? op = some x ∧ R x

/-- An operation leaves the contents as they are, or it succeeds in a change. -/
theorem contents_effect_or_change (s : Settings) (t : Contents) (op : Operation) :
    (s.effect t op).contents = t ∨
      ∃ x, s.change? op = some x ∧ (s.effect t op).answer.isOk = true := by
  cases hx : s.change? op with
  | none => exact .inl (contents_effect_of_no_change fun _ => hx)
  | some x =>
    by_cases hok : (s.effect t op).answer.isOk = true
    · exact .inr ⟨x, rfl, hok⟩
    · exact .inl (contents_effect_of_no_change fun h => absurd h hok)

theorem lasting_document (c k : String) :
    Lasting (·.document? c k ≠ none) (Change.Removes c k) where
  merge t u hu := by
    rw [Contents.document?_merge_eq]
    simp [hu]
  effect s t op ht := by
    rcases contents_effect_or_change s t op with h | ⟨x, hx, hok⟩
    · exact .inl (by rwa [h])
    · rw [document?_effect hx hok]
      split
      · next hc =>
        by_cases hn : x.outcome = none
        · exact .inr ⟨x, hx, hc, hn⟩
        · exact .inl hn
      · exact .inl ht

theorem lasting_collection (c : String) :
    Lasting (·.contains c = true) (· = .dropped c) where
  merge t u hu := (Contents.contains_merge t u c).2 (.inr hu)
  effect s t op ht := by
    rcases contents_effect_or_change s t op with h | ⟨x, hx, hok⟩
    · exact .inl (by rwa [h])
    · rw [contains_effect hx hok]
      by_cases hd : x = .dropped c
      · exact .inr ⟨x, hx, hd⟩
      · exact .inl (.inr ⟨hd, ht⟩)

namespace Store

variable {s : Store} {fs fs' : FileSystem} {p : Path} {b : Bytes} {t : Contents} {op : Operation}

/-- A store and the bytes of its file after an operation that meets these files. -/
def attempt (p : Path) (x : Bytes × Store) (y : FileSystem × Operation) : Bytes × Store :=
  ((x.2.perform y.1 y.2).files.bytesOf p x.1, (x.2.perform y.1 y.2).store)

/-- The attempts of a run in which the files may be others each time. -/
def attempts (p : Path) (b : Bytes) (s : Store) (inputs : List (FileSystem × Operation)) :
    List Attempt :=
  trace (attempt p) (b, s) inputs

/-! ### One attempt -/

/-- What could not be written is in memory all the same. -/
theorem store_of_io_error {e : FileError} (h : (s.perform fs op).result = .error (.io e)) :
    (s.perform fs op).store = ⟨s.settings, (s.settings.effect s.contents op).contents⟩ := by
  by_cases hget : ∃ c k, op = .get c k
  · obtain ⟨c, k, rfl⟩ := hget
    have hstore : (s.perform fs (.get c k)).store = s := (perform_leaves h).2
    rw [hstore, contents_effect_of_no_change fun _ => rfl]
  · rw [perform_eq fun c k hop => absurd ⟨c, k, hop⟩ hget, conclude_store]

/-- A store that cannot read its file has just the effects that do not need it. -/
theorem conclude_of_out_of_reach (hp : s.settings.backing = .file p)
    (hb : ∀ b', fs.contentOf p ≠ .ok b') (hclear : NoFileError (s.perform fs op).result) :
    ¬op.TakesOver s.settings ∧ s.perform fs op = s.conclude fs op := by
  cases op with
  | get c k =>
    cases hc : fs.contentOf p with
    | ok b' => exact absurd hc (hb b')
    | error e =>
      have hreload : s.reload fs = .error (.io e) := by
        simp only [reload, path?_eq hp, Snapshot.load, hc]
      by_cases hr : Operation.Refused s.settings (.get c k)
      · obtain ⟨why, ha⟩ := Settings.address_of_refused hr
        exact ⟨not_not.2 hr, perform_get_of_error ha⟩
      · refine absurd ?_ (hclear e)
        simp only [perform, get, Settings.address_of_not_refused hr, hreload]
        rfl
  | _ => exact ⟨id, perform_eq fun _ _ hop => by cases hop⟩

/-- What an attempt does when no call to the file system fails. -/
theorem reply_of_clear {m : Attempt} (hp : m.store.settings.backing = .file p)
    (hauto : m.store.settings.flush = .auto) (hm : m.Untouched p)
    (ht : Snapshot.decode m.state.1 = .ok t) (hclear : NoFileError m.reply.result) :
    m.reply.result = (m.store.effectOn (some t) m.operation).answer ∧
      m.reply.store =
        ⟨m.store.settings, (m.store.effectOn (some t) m.operation).contents⟩ ∧
      m.bytesAfter p = if m.operation.writes .auto m.reply.result then m.reply.store.snapshot
        else m.state.1 := by
  have hmoves : Moves p m.store m.input.1 m.operation m.reply := perform_moves hp hclear
  rcases hm with hb | ⟨hb, hstuck⟩
  · obtain ⟨hresult, hstore⟩ :=
      perform_of_load hp (Snapshot.load_eq_ok_iff.2 ⟨_, hb, ht⟩) hclear
    refine ⟨hresult, hstore, ?_⟩
    cases hw : m.operation.writes .auto m.reply.result with
    | true => exact FileSystem.bytesOf_of_contentOf (hmoves.contentOf_eq hb (hauto ▸ hw))
    | false =>
      rw [Moment.bytesAfter, hmoves.unwritten (hauto ▸ hw)]
      exact FileSystem.bytesOf_of_contentOf hb
  · obtain ⟨hover, heq⟩ := conclude_of_out_of_reach hp hb hclear
    have heq : m.reply = m.store.conclude m.input.1 m.operation := heq
    have hnot : m.operation.writes .auto m.reply.result = false := by
      rw [← Bool.not_eq_true]
      exact fun hw => hstuck _ _ (hmoves.written (hauto ▸ hw))
    have hsame : m.bytesAfter p = m.state.1 := by
      rw [Moment.bytesAfter, hmoves.unwritten (hauto ▸ hnot)]
      exact FileSystem.Untouched.bytesOf_eq (.inr ⟨hb, hstuck⟩)
    rw [hnot, hsame, effectOn, aware_of_not_takesOver hover, heq, conclude_store]
    exact ⟨(conclude_eq hp (heq ▸ hclear)).1, rfl, rfl⟩

/-- What an attempt does when a call to the file system fails. -/
theorem reply_of_io_error {m : Attempt} (hm : m.Untouched p) {e : FileError}
    (h : m.reply.result = .error (.io e)) :
    m.reply.store =
        ⟨m.store.settings, (m.store.settings.effect m.store.contents m.operation).contents⟩ ∧
      m.bytesAfter p = m.state.1 := by
  have hsame : m.input.1.Unchanged m.reply.files := (perform_leaves h).1
  refine ⟨store_of_io_error h, ?_⟩
  rw [Moment.bytesAfter, hsame.bytesOf_eq, hm.bytesOf_eq]

/-- A removal that is answered is made in memory. -/
theorem gone_of_isOk {x : Change} (hp : s.settings.backing = .file p)
    (hx : s.settings.change? op = some x) (hok : (s.perform fs op).result.isOk = true) :
    (∀ c k, x.Removes c k → (s.perform fs op).store.contents.document? c k = none) ∧
      ∀ c, x = .dropped c → (s.perform fs op).store.contents.contains c = false := by
  have heq : s.perform fs op = s.conclude fs op := perform_eq fun c k hop => by
    rw [hop] at hx
    cases hx
  rw [heq] at hok ⊢
  rw [(conclude_eq hp (noFileError_of_isOk hok)).1] at hok
  rw [conclude_store]
  refine ⟨fun c k ⟨hc, hn⟩ => ?_, fun c hc => ?_⟩
  · exact (document?_effect hx hok c k).trans (by rw [if_pos hc, hn])
  · rw [← Bool.not_eq_true, contains_effect hx hok c, hc]
    simp [Change.Creates]

/-! ### What is kept along a run -/

/-- What the file has is in memory, unless its removal is pending. -/
def Behind (past : List Attempt) (b : Bytes) (s : Store) : Prop :=
  ∃ t, Snapshot.decode b = .ok t ∧
    ∀ H R, Lasting H R → H t → H s.contents ∨ Pending R past

section

variable {past : List Attempt} {m : Attempt}

theorem Behind.clear (hp : m.store.settings.backing = .file p)
    (hauto : m.store.settings.flush = .auto) (hm : m.Untouched p)
    (hclear : NoFileError m.reply.result) (h : Behind past m.state.1 m.store) :
    Behind (past ++ [m]) (m.bytesAfter p) m.reply.store := by
  obtain ⟨t, ht, h⟩ := h
  obtain ⟨hresult, hstore, hbytes⟩ := reply_of_clear hp hauto hm ht hclear
  cases hw : m.operation.writes .auto m.reply.result with
  | true =>
    rw [hbytes, if_pos hw]
    exact ⟨_, Snapshot.decode_snapshot _ _, fun H R _ hH => .inl hH⟩
  | false =>
    have hkept : m.reply.store.contents = m.store.aware (some t) m.operation := by
      rw [hstore]
      exact effect_contents_of_not_writes (hresult ▸ hw)
    rw [hbytes, if_neg (ne_true_of_eq_false hw)]
    refine ⟨t, ht, fun H R hlasts hH => ?_⟩
    rw [hkept]
    by_cases hover : m.operation.TakesOver m.store.settings
    · rw [aware, knowing_of_takesOver hover]
      exact .inl (hlasts.merge _ _ hH)
    · -- memory and the file are as they were, and so is what is pending
      rw [aware_of_not_takesOver hover]
      refine (h H R hlasts hH).imp_right fun hpending => since_concat.2 (.inr ⟨?_, hpending⟩)
      rintro (hmends | ⟨hmends, -⟩)
      · exact absurd hmends (ne_true_of_eq_false hw)
      · exact hover hmends

theorem Behind.io_error (hm : m.Untouched p) {e : FileError}
    (he : m.reply.result = .error (.io e)) (h : Behind past m.state.1 m.store) :
    Behind (past ++ [m]) (m.bytesAfter p) m.reply.store := by
  obtain ⟨t, ht, h⟩ := h
  obtain ⟨hstore, hbytes⟩ := reply_of_io_error hm he
  rw [hbytes, hstore]
  refine ⟨t, ht, fun H R hlasts hH => ?_⟩
  -- what was in memory is there still, or this change has ended it and is pending now
  rcases h H R hlasts hH with hmemory | hpending
  · refine (hlasts.effect _ _ m.operation hmemory).imp_right fun ⟨x, hx, hR⟩ => ?_
    exact since_concat.2 (.inl ⟨x, e, hx, hR, he⟩)
  · refine .inr (since_concat.2 (.inr ⟨?_, hpending⟩))
    rintro (hmends | ⟨-, hmends⟩)
    · rw [he, m.operation.writes_error] at hmends
      cases hmends
    · exact hmends e he

theorem Behind.attempt (hp : m.store.settings.backing = .file p)
    (hauto : m.store.settings.flush = .auto) (hm : m.Untouched p)
    (h : Behind past m.state.1 m.store) :
    Behind (past ++ [m]) (m.bytesAfter p) m.reply.store := by
  by_cases hclear : NoFileError m.reply.result
  · exact h.clear hp hauto hm hclear
  · obtain ⟨e, he⟩ : ∃ e, m.reply.result = .error (.io e) := by
      simpa [NoFileError] using hclear
    exact h.io_error hm he

/-- A removal that is answered is in the file, too, if it was written or none was pending. -/
theorem Behind.lacks {H : Contents → Prop} {R : Change → Prop} (hlasts : Lasting H R)
    (h : Behind (past ++ [m]) b s) (hok : m.reply.result.isOk = true) (hmemory : ¬H s.contents)
    (hnot : m.operation.writes .auto m.reply.result = false → ¬Pending R past)
    (ht : Snapshot.decode b = .ok t) : ¬H t := by
  obtain ⟨t', ht', h⟩ := h
  obtain rfl : t' = t := Except.ok.inj (ht'.symm.trans ht)
  intro hH
  rcases since_concat.1 ((h H R hlasts hH).resolve_left hmemory) with ⟨x, e, -, -, he⟩ | ⟨hm, hp⟩
  · rw [he] at hok
    cases hok
  · exact hnot (Bool.not_eq_true _ ▸ fun hw => hm (.inl hw)) hp

end

/-- At each attempt of a run the file has what is in memory, but for removals that are pending. -/
theorem behind_of_attempts {settings : Settings} (hp : settings.backing = .file p)
    (hauto : settings.flush = .auto) (hopen : openWith settings fs = (.ok s, fs'))
    (hb : fs'.contentOf p = .ok b) {inputs : List (FileSystem × Operation)}
    (hmeets : ∀ m ∈ attempts p b s inputs, m.Untouched p) {past later : List Attempt} {m : Attempt}
    (hsplit : attempts p b s inputs = past ++ m :: later) :
    m.store.settings = settings ∧ Behind past m.state.1 m.store := by
  obtain ⟨hsettings, hl⟩ := openWith_eq_ok hp hopen
  obtain ⟨b', hb', ht⟩ := Snapshot.load_eq_ok_iff.1 hl
  obtain rfl : b' = b := Except.ok.inj (hb'.symm.trans hb)
  have hfirst : Behind [] b' s := ⟨s.contents, ht, fun H R _ hH => .inl hH⟩
  refine invariant_of_trace (P := Moment.Untouched p)
    (I := fun past x => x.2.settings = settings ∧ Behind past x.1 x.2)
    (fun past x y hm h => ?_) hmeets ⟨hsettings, hfirst⟩ hsplit
  obtain ⟨rfl, h⟩ := h
  exact ⟨perform_settings _ _ _, h.attempt hp hauto hm⟩

/-- A deletion that is reported is on disk, and so is the deletion of a collection, whichever
snapshots could not be written before: they are not in any store that is opened on the file. Only
if there was nothing to remove, a removal must not be pending that could not be written. -/
theorem reported_deletions_are_in_file {settings : Settings} (hp : settings.backing = .file p)
    (hauto : settings.flush = .auto) (hopen : openWith settings fs = (.ok s, fs'))
    (hb : fs'.contentOf p = .ok b) {inputs : List (FileSystem × Operation)}
    (hmeets : ∀ m ∈ attempts p b s inputs, m.Untouched p) {past later : List Attempt} {m : Attempt}
    (hsplit : attempts p b s inputs = past ++ m :: later) :
    ∃ t, Snapshot.decode (m.bytesAfter p) = .ok t ∧
      (∀ name k wasThere, m.operation = .delete name k →
        m.reply.result = .ok (.removed wasThere) →
        (wasThere = false → ¬Pending (Change.Removes (settings.meant name) k) past) →
        t.document? (settings.meant name) k = none) ∧
      (∀ name wasThere, m.operation = .dropCollection name →
        m.reply.result = .ok (.dropped wasThere) →
        (wasThere = false → ¬Pending (· = .dropped (settings.meant name)) past) →
        t.contains (settings.meant name) = false) ∧
      ∀ fs, fs.contentOf p = .ok (m.bytesAfter p) → NoFileError (openWith settings fs).1 →
        ∃ fs', openWith settings fs = (.ok ⟨settings, t⟩, fs') := by
  obtain ⟨rfl, hbefore⟩ := behind_of_attempts hp hauto hopen hb hmeets hsplit
  have hafter := hbefore.attempt hp hauto (hmeets m (by simp [hsplit]))
  obtain ⟨t, ht, -⟩ := id hafter
  refine ⟨t, ht, fun name k wasThere hop hr hnot => ?_, fun name wasThere hop hr hnot => ?_,
    fun fs hfs hclear => ?_⟩
  · have hok : m.reply.result.isOk = true := hr ▸ rfl
    have hx : m.store.settings.change? m.operation =
        some (.removed (m.store.settings.meant name) k) := hop ▸ rfl
    have hgone := (gone_of_isOk hp hx hok).1 _ k ⟨⟨rfl, rfl⟩, rfl⟩
    refine not_not.1 (hafter.lacks (lasting_document _ k) hok (not_not.2 hgone) (fun hw => ?_) ht)
    rw [hop, hr] at hw
    exact hnot (by simpa [Operation.writes] using hw)
  · have hok : m.reply.result.isOk = true := hr ▸ rfl
    have hx : m.store.settings.change? m.operation =
        some (.dropped (m.store.settings.meant name)) := hop ▸ rfl
    have hgone := (gone_of_isOk hp hx hok).2 _ rfl
    refine Bool.not_eq_true _ ▸ hafter.lacks (lasting_collection _) hok (ne_true_of_eq_false hgone)
      (fun hw => ?_) ht
    rw [hop, hr] at hw
    exact hnot (by simpa [Operation.writes] using hw)
  · have hvalid := validate_of_openWith hopen
    obtain ⟨fs', ho, -⟩ := openWith_of_decodes hvalid hp hclear fun b' hb' => by
      rw [(grows_openWith _ fs).contentOf_eq hfs] at hb'
      cases hb'
      exact ht
    exact ⟨fs', ho⟩

/-- Nothing is pending once a snapshot has been written. -/
theorem not_pending_of_writes {m : Attempt}
    (hw : m.operation.writes .auto m.reply.result = true) (R : Change → Prop)
    (past : List Attempt) : ¬Pending R (past ++ [m]) := by
  intro hpending
  rcases since_concat.1 hpending with ⟨x, e, -, -, he⟩ | ⟨hm, -⟩
  · rw [he, m.operation.writes_error] at hw
    cases hw
  · exact hm (.inl hw)

/-! ### A deletion that is tried again -/

/-- A store with one document, -/
def holding : Store := ⟨inDatabase, Contents.empty.put "c" "k" one⟩

/-- its file, -/
def stored : FileSystem := (perform ⟨inDatabase, .empty⟩ withDatabase (.set "c" "k" one)).files

/-- and the same file while the disk is full. -/
def stuffed : FileSystem := { stored with refusal := some .noSpace }

theorem openWith_stored : openWith inDatabase stored = (.ok holding, stored) := by cbv

theorem contentOf_stored : stored.contentOf database = .ok holding.snapshot := by cbv

/-- A deletion cannot be written, and the store is flushed before it is tried again. -/
def flushedRetry : List (FileSystem × Operation) :=
  [(stuffed, .delete "c" "k"), (stored, .flush),
    ((holding.perform stored (.delete "c" "k")).files, .delete "c" "k")]

theorem flushed_retry_is_in_file :
    ∃ (past : List Attempt) (m : Attempt) (t : Contents),
      attempts database holding.snapshot holding flushedRetry = past ++ [m] ∧
      m.operation = .delete "c" "k" ∧ m.reply.result = .ok (.removed false) ∧
      Snapshot.decode (m.bytesAfter database) = .ok t ∧ t.document? "c" "k" = none := by
  obtain ⟨failing, flushing, again, hacts, hfailing, hflushing, hagain, hw, hop, hr⟩ :
      ∃ failing flushing again : Attempt,
        attempts database holding.snapshot holding flushedRetry =
          [failing, flushing] ++ [again] ∧
        failing.input.1.contentOf database = .ok failing.state.1 ∧
        flushing.input.1.contentOf database = .ok flushing.state.1 ∧
        again.input.1.contentOf database = .ok again.state.1 ∧
        flushing.operation.writes .auto flushing.reply.result = true ∧
        again.operation = .delete "c" "k" ∧ again.reply.result = .ok (.removed false) :=
    ⟨_, _, _, rfl, by cbv, by cbv, by cbv, by cbv, rfl, by cbv⟩
  have hmeets : ∀ m ∈ attempts database holding.snapshot holding flushedRetry,
      m.Untouched database := by
    rw [hacts]
    simp only [List.cons_append, List.nil_append, List.forall_mem_cons]
    exact ⟨.inl hfailing, .inl hflushing, .inl hagain, List.forall_mem_nil _⟩
  obtain ⟨t, ht, hdeleted, -⟩ := reported_deletions_are_in_file rfl rfl openWith_stored
    contentOf_stored hmeets hacts
  refine ⟨_, again, t, hacts, hop, hr, ht, hdeleted "c" "k" false hop hr fun _ => ?_⟩
  exact not_pending_of_writes hw _ [failing]

/-- Every deletion that is answered among the attempts is in the file then. -/
def ReportedInFile (settings : Settings) (p : Path) (attempts : List Attempt) : Prop :=
  ∀ m ∈ attempts, ∃ t, Snapshot.decode (m.bytesAfter p) = .ok t ∧
    (∀ name k wasThere, m.operation = .delete name k →
      m.reply.result = .ok (.removed wasThere) → t.document? (settings.meant name) k = none) ∧
    ∀ name wasThere, m.operation = .dropCollection name →
      m.reply.result = .ok (.dropped wasThere) → t.contains (settings.meant name) = false

/-- What could not be written the first time is not written when there is nothing to delete. -/
theorem retry_is_not_in_file :
    openWith inDatabase stored = (.ok holding, stored) ∧
      stored.contentOf database = .ok holding.snapshot ∧
      ∃ inputs, (∀ m ∈ attempts database holding.snapshot holding inputs, m.Untouched database) ∧
        ¬ReportedInFile inDatabase database
          (attempts database holding.snapshot holding inputs) := by
  let retry : List (FileSystem × Operation) :=
    [(stuffed, .delete "c" "k"), (stored, .delete "c" "k")]
  obtain ⟨failing, again, hacts, hfailing, hagain, hop, hr, hleft⟩ : ∃ failing again : Attempt,
      attempts database holding.snapshot holding retry = [failing, again] ∧
      failing.input.1.contentOf database = .ok failing.state.1 ∧
      again.input.1.contentOf database = .ok again.state.1 ∧
      again.operation = .delete "c" "k" ∧ again.reply.result = .ok (.removed false) ∧
      again.bytesAfter database = holding.snapshot :=
    ⟨_, _, rfl, by cbv, by cbv, rfl, by cbv, by cbv⟩
  refine ⟨openWith_stored, contentOf_stored, retry, ?_, fun h => ?_⟩
  · rw [hacts]
    simp only [List.forall_mem_cons]
    exact ⟨.inl hfailing, .inl hagain, List.forall_mem_nil _⟩
  · obtain ⟨t, ht, hdeleted, -⟩ := h again (by simp [hacts])
    have hnone := hdeleted "c" "k" false hop hr
    rw [hleft, snapshot, Snapshot.decode_snapshot] at ht
    cases ht
    have hstill : holding.contents.document? (inDatabase.meant "c") "k" = some one := by cbv
    rw [hstill] at hnone
    cases hnone

end Store

end JsonCabinet
