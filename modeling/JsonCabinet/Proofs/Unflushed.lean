import JsonCabinet.Proofs.Traces

/-!
# Changes that are not flushed

Under the manual policy the file holds what was there at the last flush, and memory what has been
changed since then, but for one thing: a read, under whatever key, lays the file over all of it. So
what memory has under a key is told by the file and the acts since the last flush (`Entry`), which
every act keeps (`Entry.concat`, `entry_outcome`, `entry_flushed`).
-/

namespace JsonCabinet

open Files

/-! ## Acts since the last flush -/

/-- The acts that have followed the last flush. -/
def unflushed (past : List Act) : List Act := past.rtakeWhile fun m => m.input ≠ .flush

/-- The last of these acts to change what is found under the key made this change, and those that
are left have followed it. -/
def LastChange (since : List Act) (c k : String) (x : Change) (after : List Act) : Prop :=
  ∃ before m, since = before ++ m :: after ∧ m.made? = some x ∧ x.Concerns c k ∧
    ∀ m' ∈ after, ¬m'.Changes c k

/-- The act is a read that takes over the file. -/
def Moment.Overlays (m : Act) : Prop := m.input.TakesOver m.settings

/-- What memory has under a key, when the file holds these contents and has not been flushed since
before these acts: what the file has, as long as nothing is changed under the key; then what the
last change has left, until the file is read, if it has a document there. -/
structure Entry (t : Contents) (since : List Act) (c k : String) (entry : Option Document) :
    Prop where
  untouched : (∀ m ∈ since, ¬m.Changes c k) → entry = t.document? c k
  overlaid : ∀ x after d, LastChange since c k x after → t.document? c k = some d →
    (∃ m ∈ after, m.Overlays) → entry = some d
  changed : ∀ x after, LastChange since c k x after →
    (t.document? c k = none ∨ ∀ m ∈ after, ¬m.Overlays) → entry = x.outcome

variable {t : Contents} {since past after : List Act} {c k : String} {entry : Option Document}
  {x : Change} {m : Act}

theorem unflushed_concat_flush (h : m.input = .flush) : unflushed (past ++ [m]) = [] := by
  rw [unflushed, List.rtakeWhile_concat, if_neg (by simp [h])]

theorem unflushed_concat (h : m.input ≠ .flush) :
    unflushed (past ++ [m]) = unflushed past ++ [m] := by
  rw [unflushed, List.rtakeWhile_concat, if_pos (by simp [h])]
  rfl

theorem lastChange_concat : LastChange (since ++ [m]) c k x after ↔
    (after = [] ∧ m.made? = some x ∧ x.Concerns c k) ∨
      ¬m.Changes c k ∧ ∃ after', after = after' ++ [m] ∧ LastChange since c k x after' := by
  constructor
  · rintro ⟨before, m', h, hx, hc, hafter⟩
    rcases of_concat_eq h with ⟨rfl, -, rfl⟩ | ⟨after, rfl, rfl⟩
    · exact .inl ⟨rfl, hx, hc⟩
    · exact .inr ⟨hafter m (by simp), after, rfl, before, m', rfl, hx, hc,
        fun m' hm' => hafter m' (by simp [hm'])⟩
  · rintro (⟨rfl, hx, hc⟩ | ⟨hm, after', rfl, before, m', rfl, hx, hc, hafter⟩)
    · exact ⟨since, m, rfl, hx, hc, fun _ h => nomatch h⟩
    · refine ⟨before, m', by simp, hx, hc, fun m'' hm'' => ?_⟩
      rcases List.mem_append.1 hm'' with hm'' | hm''
      · exact hafter m'' hm''
      · exact List.mem_singleton.1 hm'' ▸ hm

/-! ## What an act makes of an entry -/

/-- What has just been written is what the file has. -/
theorem entry_flushed (t : Contents) (c k : String) : Entry t [] c k (t.document? c k) where
  untouched _ := rfl
  overlaid _ _ _ h := by
    obtain ⟨before, m, h, -⟩ := h
    simp at h
  changed _ _ h := by
    obtain ⟨before, m, h, -⟩ := h
    simp at h

/-- A change under the key leaves what it tells. -/
theorem entry_of_change (hx : m.made? = some x) (hc : x.Concerns c k) :
    Entry t (since ++ [m]) c k x.outcome where
  untouched h := absurd ⟨x, hx, hc⟩ (h m (by simp))
  overlaid x' after d h _ hread := by
    rcases lastChange_concat.1 h with ⟨rfl, -⟩ | ⟨hm, -⟩
    · simp at hread
    · exact absurd ⟨x, hx, hc⟩ hm
  changed x' after h _ := by
    rcases lastChange_concat.1 h with ⟨-, hx', -⟩ | ⟨hm, -⟩
    · rw [hx] at hx'
      cases hx'
      rfl
    · exact absurd ⟨x, hx, hc⟩ hm

/-- An act that changes nothing under the key leaves the entry as it is, or lays the file over
it. -/
theorem Entry.concat (h : Entry t since c k entry) (hm : ¬m.Changes c k) {entry' : Option Document}
    (hread : m.Overlays → entry' = (t.document? c k).or entry)
    (hother : ¬m.Overlays → entry' = entry) : Entry t (since ++ [m]) c k entry' where
  untouched hsince := by
    have he : entry = t.document? c k := h.untouched fun m' hm' => hsince m' (by simp [hm'])
    by_cases hr : m.Overlays
    · rw [hread hr, he, Option.or_self]
    · rw [hother hr, he]
  overlaid x after d hlast hd hreads := by
    rcases lastChange_concat.1 hlast with ⟨-, hx, hc⟩ | ⟨-, after, rfl, hbefore⟩
    · exact absurd ⟨x, hx, hc⟩ hm
    · by_cases hr : m.Overlays
      · rw [hread hr, hd, Option.some_or]
      · obtain ⟨m', hm', hreads⟩ := hreads
        rcases List.mem_append.1 hm' with hm' | hm'
        · rw [hother hr, h.overlaid x after d hbefore hd ⟨m', hm', hreads⟩]
        · exact absurd (List.mem_singleton.1 hm' ▸ hreads) hr
  changed x after hlast hnone := by
    rcases lastChange_concat.1 hlast with ⟨-, hx, hc⟩ | ⟨-, after, rfl, hbefore⟩
    · exact absurd ⟨x, hx, hc⟩ hm
    · have he : entry = x.outcome := by
        refine h.changed x after hbefore (hnone.imp_right fun hnone m' hm' => ?_)
        exact hnone m' (by simp [hm'])
      by_cases hr : m.Overlays
      · have ht : t.document? c k = none := hnone.resolve_right fun hnone =>
          hnone m (by simp) hr
        rw [hread hr, ht, Option.none_or, he]
      · rw [hother hr, he]

/-! ## Runs of a store -/

/-- What an operation shows of memory, whose entries are these, and of the file. A listing is cut
from a table of just the entries of its collection; a read finds what the file has, and otherwise
the entry. -/
def Operation.Shows (s : Settings) (file memory : Contents) (r : Except StoreError Answer) :
    Operation → Prop
  | .list name limit page =>
    (∃ table : Collection, (∀ k, table.get? k = memory.document? (s.meant name) k) ∧
      r = .ok (.page ⟨(PageWindow.clamp limit page s.maxPageSize).slice table, table.size⟩)) ∨
    (∀ k, memory.document? (s.meant name) k = none) ∧
      r = .error (.collectionNotFound (s.meant name))
  | .get name k =>
    (∀ d, r = .ok (.document (some d)) ↔
      (file.document? (s.meant name) k).or (memory.document? (s.meant name) k) = some d) ∧
    ((file.document? (s.meant name) k).or (memory.document? (s.meant name) k) = none →
      r = .ok (.document none) ∨ r = .error (.collectionNotFound (s.meant name)))
  | _ => True

namespace Store

variable {s : Store} {fs fs' : FileSystem} {p : Path} {settings : Settings} {op : Operation}

/-- Under the manual policy only a flush writes. -/
theorem writes_manual (op : Operation) (r : Except StoreError Answer) (h : op ≠ .flush) :
    op.writes .manual r = false := by
  cases r with
  | error e => exact op.writes_error .manual e
  | ok answer =>
    cases op with
    | flush => exact absurd rfl h
    | set | get | list | collections => rfl
    | delete | dropCollection => cases answer <;> simp [Operation.writes]

/-- An act keeps what is told of an entry. -/
theorem entry_outcome (ha : Alone (some t) m.state.1 m.state.2) (hclear : m.Clear)
    (h : Entry t since c k (m.state.1.contents.document? c k)) :
    Entry t (since ++ [m]) c k (m.outcome.store.contents.document? c k) := by
  by_cases hm : m.Changes c k
  · obtain ⟨x, hx, hc⟩ := hm
    rw [ha.document?_of_made hclear hx hc]
    exact entry_of_change hx hc
  · rw [ha.document?_of_not_changes hclear hm]
    refine h.concat hm (fun hr => ?_) fun hr => ?_
    · exact document?_aware_of_takesOver hr (some t) c k
    · rw [aware_of_not_takesOver hr]

/-- What is kept along a run: the file holds contents that tell, with the acts since the last flush,
what memory has. -/
structure Unsaved (settings : Settings) (past : List Act) (file? : Option Contents) (s : Store) :
    Prop where
  settings_eq : s.settings = settings
  entries : ∃ t, file? = some t ∧
    ∀ c k, Entry t (unflushed past) c k (s.contents.document? c k)

theorem Unsaved.act {file? : Option Contents} (hmanual : settings.flush = .manual)
    (h : Unsaved settings past file? m.state.1) (ha : Alone file? m.state.1 m.state.2)
    (hclear : m.Clear) :
    Unsaved settings (past ++ [m]) (m.state.1.fileAfter file? m.input) m.outcome.store := by
  obtain ⟨hm, t, rfl, hentries⟩ := h
  have hstore := (ha.perform hclear).2.1
  refine ⟨by rw [Moment.outcome, hstore, hm], ?_⟩
  by_cases hf : m.input = .flush
  · refine ⟨m.outcome.store.contents, ?_, fun c k => ?_⟩
    · rw [Moment.outcome, hstore, fileAfter, hf]
      rfl
    · rw [unflushed_concat_flush hf]
      exact entry_flushed _ c k
  · refine ⟨t, ?_, fun c k => ?_⟩
    · rw [fileAfter, hm, hmanual, writes_manual _ _ hf]
      rfl
    · rw [unflushed_concat hf]
      exact entry_outcome ha hclear (hentries c k)

end Store

end JsonCabinet
