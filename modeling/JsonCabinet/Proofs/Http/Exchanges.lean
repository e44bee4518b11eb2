import JsonCabinet.Proofs.Http.Plans

/-!
# Exchanges over a binding

A binding answers requests one after another from a store that nobody shares a file with. What is
stored under a key is then told by the exchanges so far: it is the body that was last accepted for
the key, unless the key has been deleted since (`Live`). Every exchange keeps this
(`Keeps.exchange`), so a client who remembers the exchanges knows what the next one will be, and no
request has an effect beyond the key that it is about (`Exchange.Lawful`).
-/

namespace JsonCabinet.Http

open Files

/-! ## Exchanges -/

/-- A request, with the store and the files that it meets. -/
abbrev Exchange := Moment (Store × FileSystem) Request

def serve (s : HttpSettings) (x : Store × FileSystem) (request : Request) : Store × FileSystem :=
  (respond s Store.backend request x).2

def exchanges (s : HttpSettings) (x : Store × FileSystem) (requests : List Request) :
    List Exchange :=
  trace (serve s) x requests

namespace Exchange

def response (s : HttpSettings) (m : Exchange) : Response :=
  (respond s Store.backend m.input m.state).1

def status (s : HttpSettings) (m : Exchange) : Nat := (m.response s).status

def before (m : Exchange) : Contents := m.state.1.contents

def after (s : HttpSettings) (m : Exchange) : Contents := (serve s m.state m.input).1.contents

/-- What came of the request is told by the contents that it met. -/
abbrev Served (s : HttpSettings) (c : String) (m : Exchange) : Prop :=
  Serves s c m.before m.input (m.response s) (m.after s)

/-- No call to the file system failed. -/
def Clear (s : HttpSettings) (m : Exchange) : Prop :=
  ∀ call, (plan s m.input).call? = some call → NoFileError (Store.backend.perform call m.state).1

/-- The body was accepted for the key. -/
def Puts (s : HttpSettings) (k : String) (body : Bytes) (m : Exchange) : Prop :=
  m.input.Addresses s (some k) ∧ m.input.Stores ∧ m.input.body = body ∧ m.status s = 201

/-- The key was deleted. -/
def Deletes (s : HttpSettings) (k : String) (m : Exchange) : Prop :=
  m.input.Addresses s (some k) ∧ m.input.method = "DELETE" ∧ m.status s = 200

def Decides (s : HttpSettings) (k : String) (m : Exchange) : Prop :=
  (∃ body, m.Puts s k body) ∨ m.Deletes s k

end Exchange

/-- The key is live after these exchanges, and this is what is stored under it: the body that was
last accepted for it, without the spaces around it, or the document that was there first. -/
def Live (s : HttpSettings) (k : String) (first? : Option Document) (past : List Exchange)
    (v : Bytes) : Prop :=
  (∃ body, Since (Exchange.Puts s k body) (Exchange.Decides s k) past ∧ v = body.trim) ∨
    (∀ m ∈ past, ¬m.Decides s k) ∧ ∃ d, first? = some d ∧ v = d.bytes

/-- What an exchange is expected to be, by those before it on a store with these first contents,
where the binding is of this collection. -/
structure Exchange.Lawful (s : HttpSettings) (c : String) (first : Contents) (past : List Exchange)
    (m : Exchange) : Prop where
  put_iff : ∀ k, m.input.Addresses s (some k) → m.input.Stores →
    (m.status s = 201 ↔ Document.Written m.input.body)
  get_iff : ∀ k, m.input.Addresses s (some k) → m.input.method = "GET" →
    ∀ v, (m.status s = 200 ∧ (m.response s).body = v) ↔ Live s k (first.document? c k) past v
  get_missing : ∀ k, m.input.Addresses s (some k) → m.input.method = "GET" →
    (∀ v, ¬Live s k (first.document? c k) past v) → m.status s = 404
  delete_iff : ∀ k, m.input.Addresses s (some k) → m.input.method = "DELETE" →
    (m.status s = 200 ↔ ∃ v, Live s k (first.document? c k) past v)
  created : m.status s = 201 → ∃ k, m.input.Addresses s (some k) ∧ m.input.Stores ∧
    (∃ d, (m.after s).document? c k = some d ∧ d.bytes = m.input.body.trim) ∧
    ∀ c' k', ¬(c = c' ∧ k = k') → (m.after s).document? c' k' = m.before.document? c' k'
  removed : m.input.method = "DELETE" → m.status s = 200 → ∃ k, m.input.Addresses s (some k) ∧
    (m.after s).document? c k = none ∧
    ∀ c' k', ¬(c = c' ∧ k = k') → (m.after s).document? c' k' = m.before.document? c' k'
  unchanged : m.status s ≠ 201 → ¬(m.input.method = "DELETE" ∧ m.status s = 200) →
    m.after s = m.before
  others : ∀ c', c' ≠ c → (m.after s).get? c' = m.before.get? c'
  collections : ∀ c', m.before.contains c' = true → (m.after s).contains c' = true

/-! ## What comes of a request, from the outside -/

namespace Serves

variable {s : HttpSettings} {c : String} {t after : Contents} {request : Request}
  {response : Response} {k : String}

theorem of_created (h : Serves s c t request response after) (hr : response.status = 201) :
    ∃ k d, request.Addresses s (some k) ∧ request.Stores ∧
      Document.ofBytes request.body = .ok d ∧ after = t.put c k d := by
  cases h with
  | stores ha hm hd => exact ⟨_, _, ha, hm, hd, rfl⟩
  | removes | finds => cases hr
  | misses _ _ _ h404 => rw [h404] at hr; cases hr
  | leaves _ hne => exact absurd hr hne

theorem of_deleted (h : Serves s c t request response after) (hm : request.method = "DELETE")
    (hr : response.status = 200) :
    ∃ k table, request.Addresses s (some k) ∧ t.get? c = some table ∧
      table.contains k = true ∧ after = t.insert c (table.erase k) := by
  cases h with
  | stores => cases hr
  | removes ha _ ht hk => exact ⟨_, _, ha, ht, hk, rfl⟩
  | finds _ hget => exact absurd (hget.symm.trans hm) (by decide)
  | misses _ _ _ h404 => rw [h404] at hr; cases hr
  | leaves _ _ hne => exact absurd hr (hne hm)

theorem unchanged (h : Serves s c t request response after) (hr : response.status ≠ 201)
    (hm : ¬(request.method = "DELETE" ∧ response.status = 200)) : after = t := by
  cases h with
  | stores => exact absurd rfl hr
  | removes _ hdelete => exact absurd ⟨hdelete, rfl⟩ hm
  | finds | misses | leaves => rfl

theorem put_iff (h : Serves s c t request response after) (ha : request.Addresses s (some k))
    (hm : request.Stores) : response.status = 201 ↔ Document.Written request.body := by
  cases h with
  | stores _ _ hd => exact iff_of_true rfl (Document.written_iff.2 ⟨_, hd⟩)
  | removes _ hdelete => exact absurd hdelete hm.other.2
  | finds _ hget => exact absurd hget hm.other.1
  | misses _ hother => exact (hother.elim hm.other.1 hm.other.2).elim
  | leaves hk hne => exact iff_of_false hne ((hk k ha).2.2 hm)

/-- A document is sent if there is one. -/
theorem of_get (h : Serves s c t request response after) (ha : request.Addresses s (some k))
    (hm : request.method = "GET") :
    (∃ d, t.document? c k = some d ∧ response = .json d.bytes) ∨
      t.document? c k = none ∧ response.status = 404 := by
  cases h with
  | stores _ hstores => exact absurd hm hstores.other.1
  | removes _ hdelete => exact absurd (hm.symm.trans hdelete) (by decide)
  | finds ha' _ hd =>
    obtain rfl := Option.some.inj (reaches_unique ha'.reaches ha.reaches)
    exact .inl ⟨_, hd, rfl⟩
  | misses ha' _ hd hr =>
    obtain rfl := Option.some.inj (reaches_unique ha'.reaches ha.reaches)
    exact .inr ⟨hd, hr⟩
  | leaves hk => exact absurd hm (hk k ha).1

/-- A deletion succeeds if there is a document. -/
theorem of_delete (h : Serves s c t request response after) (ha : request.Addresses s (some k))
    (hm : request.method = "DELETE") :
    response.status = 200 ↔ ∃ d, t.document? c k = some d := by
  cases h with
  | stores _ hstores => exact absurd hm hstores.other.2
  | @removes k' table ha' _ ht hk =>
    obtain rfl := Option.some.inj (reaches_unique ha'.reaches ha.reaches)
    refine iff_of_true rfl ?_
    rw [Contents.document?, ht]
    exact Option.isSome_iff_exists.1 hk
  | finds _ hget => exact absurd (hget.symm.trans hm) (by decide)
  | misses ha' _ hd hr =>
    obtain rfl := Option.some.inj (reaches_unique ha'.reaches ha.reaches)
    exact iff_of_false (by rw [hr]; decide) (by simp [hd])
  | leaves hk => exact absurd hm (hk k ha).2.1

theorem get?_of_ne (h : Serves s c t request response after) {name : String} (hn : name ≠ c) :
    after.get? name = t.get? name := by
  cases h with
  | stores | removes => exact (Table.get?_insert t c _ name).trans (if_neg hn)
  | finds | misses | leaves => rfl

theorem contains (h : Serves s c t request response after) {name : String}
    (hn : t.contains name = true) : after.contains name = true := by
  cases h with
  | stores | removes => exact (Table.contains_insert t c _ name).2 (.inr hn)
  | finds | misses | leaves => exact hn

end Serves

/-! ## What is stored under a key -/

theorem live_concat {s : HttpSettings} {k : String} {first? : Option Document}
    {past : List Exchange} {m : Exchange} {v : Bytes} :
    Live s k first? (past ++ [m]) v ↔ (∃ body, m.Puts s k body ∧ v = body.trim) ∨
      ¬m.Decides s k ∧ Live s k first? past v := by
  constructor
  · rintro (⟨body, hsince, hv⟩ | ⟨hnone, hfirst⟩)
    · rcases since_concat.1 hsince with hm | ⟨hm, hsince⟩
      · exact .inl ⟨body, hm, hv⟩
      · exact .inr ⟨hm, .inl ⟨body, hsince, hv⟩⟩
    · exact .inr ⟨hnone m (by simp), .inr ⟨fun m' hm' => hnone m' (by simp [hm']), hfirst⟩⟩
  · rintro (⟨body, hm, hv⟩ | ⟨hm, ⟨body, hsince, hv⟩ | ⟨hnone, hfirst⟩⟩)
    · exact .inl ⟨body, since_concat.2 (.inl hm), hv⟩
    · exact .inl ⟨body, since_concat.2 (.inr ⟨hm, hsince⟩), hv⟩
    · refine .inr ⟨fun m' hm' => ?_, hfirst⟩
      rcases List.mem_append.1 hm' with hm' | hm'
      · exact hnone m' hm'
      · exact List.mem_singleton.1 hm' ▸ hm

/-- This is stored under the key. -/
def StoredAs (t : Contents) (c k : String) (v : Bytes) : Prop :=
  ∃ d, t.document? c k = some d ∧ d.bytes = v

section Exchanges

variable {s : HttpSettings} {c k : String} {m : Exchange}

theorem storedAs_of_puts {body v : Bytes} (h : m.Served s c) (hm : m.Puts s k body) :
    StoredAs (m.after s) c k v ↔ v = body.trim := by
  obtain ⟨ha, -, rfl, hr⟩ := hm
  obtain ⟨k', d, ha', -, hd, hafter⟩ := h.of_created hr
  obtain rfl := Option.some.inj (reaches_unique ha'.reaches ha.reaches)
  rw [StoredAs, hafter, Contents.document?_put, ← Document.bytes_of_ofBytes hd]
  simp [eq_comm]

theorem not_storedAs_of_deletes {v : Bytes} (h : m.Served s c) (hm : m.Deletes s k) :
    ¬StoredAs (m.after s) c k v := by
  obtain ⟨ha, hdelete, hr⟩ := hm
  obtain ⟨k', table, ha', ht, -, hafter⟩ := h.of_deleted hdelete hr
  obtain rfl := Option.some.inj (reaches_unique ha'.reaches ha.reaches)
  rw [StoredAs, hafter, Contents.document?_insert_erase ht, if_pos ⟨rfl, rfl⟩]
  simp

/-- What is stored under a key stays unless the key is decided. -/
theorem document?_of_not_decides (h : m.Served s c) (hm : ¬m.Decides s k) :
    (m.after s).document? c k = m.before.document? c k := by
  by_cases hr : m.status s = 201
  · obtain ⟨k', d, ha, hstores, -, hafter⟩ := h.of_created hr
    have hne : ¬(c = c ∧ k' = k) := by
      rintro ⟨-, rfl⟩
      exact hm (.inl ⟨_, ha, hstores, rfl, hr⟩)
    rw [hafter, Contents.document?_put_eq, if_neg hne]
  · by_cases hdel : m.input.method = "DELETE" ∧ m.status s = 200
    · obtain ⟨k', table, ha, ht, -, hafter⟩ := h.of_deleted hdel.1 hdel.2
      have hne : ¬(c = c ∧ k' = k) := by
        rintro ⟨-, rfl⟩
        exact hm (.inr ⟨ha, hdel⟩)
      rw [hafter, Contents.document?_insert_erase ht, if_neg hne]
    · rw [h.unchanged hr hdel]

/-- What is stored under a key is told by what the request has done to it. -/
theorem storedAs_after {v : Bytes} (h : m.Served s c) :
    StoredAs (m.after s) c k v ↔ (∃ body, m.Puts s k body ∧ v = body.trim) ∨
      ¬m.Decides s k ∧ StoredAs m.before c k v := by
  by_cases hm : m.Decides s k
  · rcases hm with ⟨body, hputs⟩ | hdeletes
    · rw [storedAs_of_puts h hputs]
      refine ⟨fun hv => .inl ⟨body, hputs, hv⟩, ?_⟩
      rintro (⟨body', hputs', rfl⟩ | ⟨hnot, -⟩)
      · rw [← hputs'.2.2.1, hputs.2.2.1]
      · exact absurd (.inl ⟨body, hputs⟩) hnot
    · refine iff_of_false (not_storedAs_of_deletes h hdeletes) ?_
      -- the status tells which of the two was done
      rintro (⟨body, hputs, -⟩ | ⟨hnot, -⟩)
      · exact absurd (hputs.2.2.2.symm.trans hdeletes.2.2) (by decide)
      · exact absurd (.inr hdeletes) hnot
  · rw [StoredAs, document?_of_not_decides h hm]
    refine ⟨fun hv => .inr ⟨hm, hv⟩, ?_⟩
    rintro (⟨body, hputs, -⟩ | ⟨-, hv⟩)
    · exact absurd (.inl ⟨body, hputs⟩) hm
    · exact hv

theorem lawful_of_serves {first : Contents} {past : List Exchange}
    (h : m.Served s c)
    (hlive : ∀ k v, StoredAs m.before c k v ↔ Live s k (first.document? c k) past v) :
    m.Lawful s c first past where
  put_iff k ha hm := h.put_iff ha hm
  get_iff k ha hm v := by
    rw [← hlive]
    rcases h.of_get ha hm with ⟨d, hd, hr⟩ | ⟨hd, hr⟩
    · rw [StoredAs, Exchange.status, hr, hd]
      simp [Response.json]
    · rw [StoredAs, Exchange.status, hr, hd]
      simp
  get_missing k ha hm hnone := by
    rcases h.of_get ha hm with ⟨d, hd, -⟩ | ⟨-, hr⟩
    · exact absurd ((hlive k _).1 ⟨d, hd, rfl⟩) (hnone _)
    · exact hr
  delete_iff k ha hm := by
    refine (h.of_delete ha hm).trans ⟨fun ⟨d, hd⟩ => ⟨_, (hlive k _).1 ⟨d, hd, rfl⟩⟩, ?_⟩
    rintro ⟨v, hv⟩
    obtain ⟨d, hd, -⟩ := (hlive k v).2 hv
    exact ⟨d, hd⟩
  created hr := by
    obtain ⟨k, d, ha, hm, hd, hafter⟩ := h.of_created hr
    refine ⟨k, ha, hm, ⟨d, ?_, Document.bytes_of_ofBytes hd⟩, fun c' k' hne => ?_⟩
    · rw [hafter, Contents.document?_put]
    · rw [hafter, Contents.document?_put_eq, if_neg hne]
  removed hm hr := by
    obtain ⟨k, table, ha, ht, -, hafter⟩ := h.of_deleted hm hr
    refine ⟨k, ha, ?_, fun c' k' hne => ?_⟩
    · rw [hafter, Contents.document?_insert_erase ht, if_pos ⟨rfl, rfl⟩]
    · rw [hafter, Contents.document?_insert_erase ht, if_neg hne]
  unchanged hr hm := h.unchanged hr hm
  others _ hne := h.get?_of_ne hne
  collections _ hc := h.contains hc

theorem serves_exchange (hname : ¬(s.collection = "" ∧ m.state.1.settings.emptyNames = .reject))
    (hsettled : Store.Settled m.state) (hclear : m.Clear s) :
    m.Served s (m.state.1.settings.meant s.collection) ∧
      (serve s m.state m.input).1.settings = m.state.1.settings ∧
      Store.Settled (serve s m.state m.input) := by
  obtain ⟨hyields, hsettings, hafter⟩ := yields_run hsettled hclear
  exact ⟨serves_plan hname hyields, hsettings, hafter⟩

/-! ## Runs of requests -/

/-- What is kept along a run: the store is as settled as it was, and has under each key what is live
there. -/
structure Keeps (s : HttpSettings) (settings : Settings) (first : Contents) (past : List Exchange)
    (x : Store × FileSystem) : Prop where
  settings_eq : x.1.settings = settings
  settled : Store.Settled x
  live : ∀ k v, StoredAs x.1.contents (settings.meant s.collection) k v ↔
    Live s k (first.document? (settings.meant s.collection) k) past v

theorem Keeps.exchange {settings : Settings} {first : Contents} {past : List Exchange}
    (hname : ¬(s.collection = "" ∧ settings.emptyNames = .reject)) (hclear : m.Clear s)
    (h : Keeps s settings first past m.state) :
    Keeps s settings first (past ++ [m]) (serve s m.state m.input) := by
  obtain ⟨rfl, hsettled, hlive⟩ := h
  obtain ⟨hserves, hsettings, hafter⟩ := serves_exchange hname hsettled hclear
  refine ⟨hsettings, hafter, fun k v => ?_⟩
  rw [live_concat, ← hlive k v]
  exact storedAs_after hserves

/-- The exchanges over a binding, of a store in memory or of one that writes every change at once to
a file that nobody else touches: the body that was last accepted for a key is sent for it until the
key is deleted, and no request has an effect but on its own key. -/
theorem exchanges_are_lawful {settings : Settings} {store : Store} {fs fs' : FileSystem}
    (hopen : Store.openWith settings fs = (.ok store, fs'))
    (hpolicy : settings.backing = .memory ∨ settings.flush = .auto)
    (hname : ¬(s.collection = "" ∧ settings.emptyNames = .reject)) {ops : List Operation}
    (hops : ∀ m ∈ store.acts fs' ops, m.Clear) {requests : List Request}
    (hclear : ∀ m ∈ exchanges s (ops.foldl Store.next (store, fs')) requests, m.Clear s)
    {past later : List Exchange}
    (hsplit : exchanges s (ops.foldl Store.next (store, fs')) requests = past ++ m :: later) :
    m.Lawful s (settings.meant s.collection) (ops.foldl Store.next (store, fs')).1.contents
      past := by
  let x := ops.foldl Store.next (store, fs')
  have hbegin : Keeps s settings x.1.contents [] x := by
    obtain ⟨hsettled, hsettings⟩ :=
      Store.settled_of_acts (Store.settled_of_openWith hopen hpolicy) hops
    refine ⟨hsettings.trans (Store.alone_of_openWith hopen).1, hsettled, fun k v => ?_⟩
    simp [Live, StoredAs, not_since_nil, eq_comm, x]
  have hkeeps : Keeps s settings x.1.contents past m.state :=
    invariant_of_trace (P := Exchange.Clear s) (I := Keeps s settings x.1.contents)
      (fun past y request hok h => h.exchange (m := ⟨y, request⟩) hname hok) hclear hbegin hsplit
  obtain ⟨rfl, hsettled, hlive⟩ := hkeeps
  have hserves := (serves_exchange hname hsettled (hclear m (by simp [hsplit]))).1
  exact lawful_of_serves hserves hlive

end Exchanges

/-- Where every call succeeds, no call to the file system failed. -/
theorem clear_of_all_isOk {s : HttpSettings} {l : List Exchange}
    (h : l.all (fun m => (plan s m.input).call?.all fun call =>
      (Store.backend.perform call m.state).1.isOk) = true) : ∀ m ∈ l, m.Clear s := by
  intro m hm call hcall
  have hok := List.all_eq_true.1 h m hm
  rw [hcall] at hok
  exact noFileError_of_isOk hok

/-! ### A document is stored and sent -/

def storing : Request := ⟨"PUT", Bytes.ofString "/k", Bytes.ofString " 1\n"⟩

def asking : Request := ⟨"GET", Bytes.ofString "/k", []⟩

theorem addresses_k {request : Request} (ht : request.target = Bytes.ofString "/k")
    (hb : request.body.length ≤ bodyLimit) : request.Addresses .initial (some "k") where
  reaches := by
    have hroute : Route.match? (normalBase HttpSettings.initial.basePath)
        (Target.ofBytes (Bytes.ofString "/k")).path = some (.item [⟨"path", [0x6B]⟩]) := by cbv
    rw [Request.Reaches, ht, hroute]
    exact ⟨"k", by cbv, by cbv⟩
  query := ⟨⟨none, none⟩, by rw [Request.query, ht]; cbv⟩
  body := hb

theorem stored_document_is_sent :
    ∃ (past : List Exchange) (m : Exchange),
      exchanges .initial (.inMemory, .fresh) [storing, asking] = past ++ [m] ∧
      m.input = asking ∧ m.status .initial = 200 ∧
      (m.response .initial).body = Bytes.ofString "1" := by
  have hclear : ∀ m ∈ exchanges .initial (.inMemory, .fresh) [storing, asking],
      m.Clear .initial := clear_of_all_isOk (by cbv)
  obtain ⟨first, second, hall, hinput, hstatus, hinput'⟩ :
      ∃ first second : Exchange,
        exchanges .initial (.inMemory, .fresh) [storing, asking] = [first] ++ [second] ∧
        first.input = storing ∧ first.status .initial = 201 ∧ second.input = asking :=
    ⟨_, _, rfl, rfl, by cbv, rfl⟩
  have hnone : ∀ m ∈ Store.acts .inMemory .fresh [], m.Clear := List.forall_mem_nil _
  have hlawful :=
    exchanges_are_lawful Store.openWith_inMemory (.inl rfl) (by decide) hnone hclear hall
  have hputs : first.Puts .initial "k" storing.body :=
    ⟨hinput ▸ addresses_k rfl (by cbv), by rw [hinput]; exact .inr rfl, by rw [hinput], hstatus⟩
  have hlive : Live .initial "k" none [first] (Bytes.ofString "1") :=
    .inl ⟨storing.body, ⟨[], first, [], rfl, hputs, List.forall_mem_nil _⟩, by cbv⟩
  have hasked : second.input.Addresses .initial (some "k") := hinput' ▸ addresses_k rfl (by cbv)
  obtain ⟨hstatus', hbody⟩ :=
    (hlawful.get_iff "k" hasked (by rw [hinput']; rfl) (Bytes.ofString "1")).2 hlive
  exact ⟨[first], second, hall, hinput', hstatus', hbody⟩

end JsonCabinet.Http
