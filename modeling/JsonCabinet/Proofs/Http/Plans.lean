import JsonCabinet.Http.Binding
import JsonCabinet.Proofs.Documents
import JsonCabinet.Proofs.Traces

/-!
# What is done for a request

A request is about a key or about the collection, if it is understood at all (`Request.Addresses`),
and then its method and its addressee tell what is done for it (`plan_cases`). On a store whose
file, if it has one, is up to date, the contents tell what comes of it (`yields_run`): a document is
stored, removed or found, or there is none, or nothing is done (`Serves`).
-/

namespace JsonCabinet

open Files

/-! ## Calls as operations -/

namespace Call

def operation : Call → Operation
  | .set c k d => .set c k d
  | .get c k => .get c k
  | .delete c k => .delete c k
  | .list c limit page => .list c limit page

/-- What a call gives, as the answer to its operation. -/
def wrap : (call : Call) → call.Answer → JsonCabinet.Answer
  | .set .., _ => .done
  | .get .., d? => .document d?
  | .delete .., wasThere => .removed wasThere
  | .list .., listing => .page listing

end Call

theorem eq_ok_of_map {α β : Type} {r : Except StoreError α} {f : α → β} {b : β}
    (h : Except.ok b = r.map f) : ∃ a, r = .ok a ∧ f a = b := by
  cases r with
  | error e => cases h
  | ok a => cases h; exact ⟨a, rfl, rfl⟩

theorem eq_error_of_map {α β : Type} {r : Except StoreError α} {f : α → β} {e : StoreError}
    (h : Except.error e = r.map f) : r = .error e := by
  cases r with
  | error e => cases h; rfl
  | ok a => cases h

theorem backend_perform (call : Call) (s : Store) (fs : FileSystem) :
    (s.perform fs call.operation).result =
        (Store.backend.perform call (s, fs)).1.map call.wrap ∧
      (Store.backend.perform call (s, fs)).2 = Store.next (s, fs) call.operation := by
  cases call <;> exact ⟨rfl, rfl⟩

namespace Http

/-! ## Plans that are carried out -/

def Plan.call? : Plan → Option Call
  | .respond _ => none
  | .ask call _ => some call

/-- The plan is to refuse the request at once. -/
def Plan.Refuses : Plan → Prop
  | .respond response => 400 ≤ response.status
  | .ask _ _ => False

/-- What comes of a plan on these contents. -/
def Plan.Yields (s : Settings) (t : Contents) (response : Response) (after : Contents) :
    Plan → Prop
  | .respond told => response = told ∧ after = t
  | .ask call answer => ∃ r : Except StoreError call.Answer,
    (s.effect t call.operation).answer = r.map call.wrap ∧ response = answer r ∧
      after = (s.effect t call.operation).contents

/-- The store is changed by its operations alone, so its contents tell what comes of a plan. -/
theorem yields_run {s : Store} {fs : FileSystem} (h : Store.Settled (s, fs)) {plan : Plan}
    (hclear : ∀ call, plan.call? = some call →
      NoFileError (Store.backend.perform call (s, fs)).1) :
    plan.Yields s.settings s.contents (plan.run Store.backend (s, fs)).1
        (plan.run Store.backend (s, fs)).2.1.contents ∧
      (plan.run Store.backend (s, fs)).2.1.settings = s.settings ∧
      Store.Settled (plan.run Store.backend (s, fs)).2 := by
  cases plan with
  | respond response => exact ⟨⟨rfl, rfl⟩, rfl, h⟩
  | ask call answer =>
    obtain ⟨hresult, hnext⟩ := backend_perform call s fs
    have hclear' : NoFileError (s.perform fs call.operation).result := fun e he =>
      hclear call rfl e (eq_error_of_map (he.symm.trans hresult))
    obtain ⟨heffect, hstore, hsettled⟩ := h.perform hclear'
    rw [Plan.run, hnext]
    refine ⟨⟨_, heffect.symm.trans hresult, rfl, ?_⟩, ?_, hsettled⟩
    · rw [Store.next, hstore]
    · rw [Store.next, hstore]

/-- A call whose names are refused is answered by an error, and changes nothing. -/
theorem Plan.Yields.of_refused {s : Settings} {t after : Contents} {response : Response}
    {call : Call} {answer : Except StoreError call.Answer → Response}
    (h : (Plan.ask call answer).Yields s t response after) (hr : call.operation.Refused s) :
    ∃ e, response = answer (.error e) ∧ after = t := by
  obtain ⟨r, hresult, rfl, rfl⟩ := h
  obtain ⟨why, he⟩ := Settings.effect_of_refused hr t
  rw [he] at hresult ⊢
  obtain rfl := eq_error_of_map hresult
  exact ⟨_, rfl, rfl⟩

/-! ## Requests that are understood -/

def Request.query (request : Request) : Bytes := (Target.ofBytes request.target).query

/-- The path of the request leads to this key, or to the collection. -/
def Request.Reaches (s : HttpSettings) (a : Addressee) (request : Request) : Prop :=
  match Route.match? (normalBase s.basePath) (Target.ofBytes request.target).path with
  | none => False
  | some .collection => a = none
  | some (.item captures) => ∃ rest, decodeCaptures captures = .ok [rest] ∧ a = addresseeOf rest

/-- The request is about this key, or about the collection: its path leads there, its query can be
read, and its body is not too large. -/
structure Request.Addresses (s : HttpSettings) (a : Addressee) (request : Request) : Prop where
  reaches : request.Reaches s a
  query : ∃ params, ListParams.ofQuery request.query = .ok params
  body : request.body.length ≤ bodyLimit

/-- The request asks for its body to be stored. -/
def Request.Stores (request : Request) : Prop := request.method = "POST" ∨ request.method = "PUT"

theorem Request.Stores.other {request : Request} (h : request.Stores) :
    request.method ≠ "GET" ∧ request.method ≠ "DELETE" := by
  rcases h with h | h <;> rw [h] <;> exact ⟨by decide, by decide⟩

section Understanding

variable {s : HttpSettings} {request : Request} {a b : Addressee}

theorem reaches_unique (ha : request.Reaches s a) (hb : request.Reaches s b) : a = b := by
  unfold Request.Reaches at ha hb
  cases hroute : Route.match? (normalBase s.basePath) (Target.ofBytes request.target).path with
  | none =>
    rw [hroute] at ha
    exact ha.elim
  | some route =>
    rw [hroute] at ha hb
    cases route with
    | collection => exact ha.trans hb.symm
    | item captures =>
      obtain ⟨rest, hrest, rfl⟩ := ha
      obtain ⟨rest', hrest', rfl⟩ := hb
      rw [hrest] at hrest'
      cases hrest'
      rfl

/-- A request about the collection is not about a key. -/
theorem Request.Addresses.not_some {k : String} (h : request.Addresses s none) :
    ¬request.Addresses s (some k) := fun hk => by
  cases reaches_unique h.reaches hk.reaches

theorem ne_empty_of_reaches {k : String} (h : request.Reaches s (some k)) : k ≠ "" := by
  unfold Request.Reaches at h
  split at h
  · exact h.elim
  · cases h
  · obtain ⟨rest, -, h⟩ := h
    unfold addresseeOf at h
    split at h
    · cases h
    · next hne =>
      cases h
      exact hne

/-- What the path leads to is dealt with; a path that leads nowhere is refused. -/
theorem plan_of_path (s : HttpSettings) (request : Request) :
    (∃ a, request.Reaches s a ∧ plan s request = planFor s a request request.query) ∨
      (∀ a, ¬request.Reaches s a) ∧ (plan s request).Refuses := by
  cases hroute : Route.match? (normalBase s.basePath) (Target.ofBytes request.target).path with
  | none =>
    simp only [plan, Request.Reaches, hroute]
    exact .inr ⟨fun _ => id, by show 400 ≤ 404; decide⟩
  | some route =>
    cases route with
    | collection =>
      simp only [plan, Request.Reaches, hroute]
      exact .inl ⟨none, rfl, rfl⟩
    | item captures =>
      match hd : decodeCaptures captures with
      | .ok [rest] =>
        simp only [plan, Request.Reaches, hroute, hd]
        exact .inl ⟨_, ⟨rest, rfl, rfl⟩, rfl⟩
      | .error _ =>
        simp only [plan, Request.Reaches, hroute, hd]
        exact .inr ⟨fun _ ⟨_, hrest, _⟩ => (nomatch hrest), by show 400 ≤ 400; decide⟩
      | .ok [] | .ok (_ :: _ :: _) =>
        simp only [plan, Request.Reaches, hroute, hd]
        exact .inr ⟨fun _ ⟨_, hrest, _⟩ => (nomatch hrest), by show 400 ≤ 500; decide⟩

/-- What is understood is dealt with by its method and its addressee, and what is not is refused. -/
theorem plan_cases (s : HttpSettings) (request : Request) :
    (∃ a params, request.Addresses s a ∧
      plan s request = dispatch s request.method a params request.body) ∨
      (∀ a, ¬request.Addresses s a) ∧ (plan s request).Refuses := by
  rcases plan_of_path s request with ⟨a, ha, hplan⟩ | ⟨hnot, hplan⟩
  · rw [hplan, planFor]
    cases hq : ListParams.ofQuery request.query with
    | error e =>
      refine .inr ⟨fun a h => ?_, by show 400 ≤ 400; decide⟩
      obtain ⟨params, hparams⟩ := h.query
      rw [hq] at hparams
      cases hparams
    | ok params =>
      simp only
      split
      · next hl =>
        exact .inr ⟨fun a h => absurd h.body (Nat.not_le.2 hl), by show 400 ≤ 413; decide⟩
      · next hl => exact .inl ⟨a, params, ⟨ha, ⟨params, hq⟩, Nat.not_lt.1 hl⟩, rfl⟩
  · exact .inr ⟨fun a h => hnot a h.reaches, hplan⟩

end Understanding

/-! ## What comes of a request -/

/-- What comes of a request about a binding of this collection. -/
inductive Serves (s : HttpSettings) (c : String) (t : Contents) (request : Request) :
    Response → Contents → Prop
  | stores {k : String} {d : Document} (ha : request.Addresses s (some k)) (hm : request.Stores)
    (hd : Document.ofBytes request.body = .ok d) :
    Serves s c t request (.empty 201) (t.put c k d)
  | removes {k : String} {table : Collection} (ha : request.Addresses s (some k))
    (hm : request.method = "DELETE") (ht : t.get? c = some table)
    (hk : table.contains k = true) :
    Serves s c t request (.empty 200) (t.insert c (table.erase k))
  | finds {k : String} {d : Document} (ha : request.Addresses s (some k))
    (hm : request.method = "GET") (hd : t.document? c k = some d) :
    Serves s c t request (.json d.bytes) t
  | misses {k : String} {response : Response} (ha : request.Addresses s (some k))
    (hm : request.method = "GET" ∨ request.method = "DELETE") (hd : t.document? c k = none)
    (hr : response.status = 404) : Serves s c t request response t
  | leaves {response : Response} (hk : ∀ k, request.Addresses s (some k) →
      request.method ≠ "GET" ∧ request.method ≠ "DELETE" ∧
        (request.Stores → ¬Document.Written request.body))
    (hr : response.status ≠ 201) (hm : request.method = "DELETE" → response.status ≠ 200) :
    Serves s c t request response t

section Serving

variable {s : HttpSettings} {settings : Settings} {t after : Contents} {request : Request}
  {response : Response} {k : String} {a : Addressee}

/-- Whatever is refused changes nothing. -/
theorem serves_refused {c : String} (hk : ∀ k, request.Addresses s (some k) →
      request.method ≠ "GET" ∧ request.method ≠ "DELETE" ∧
        (request.Stores → ¬Document.Written request.body))
    (hr : 400 ≤ response.status) : Serves s c t request response t :=
  .leaves hk (by omega) fun _ => by omega

theorem statusOf_cases (e : StoreError) :
    Response.statusOf e = 404 ∨ Response.statusOf e = 400 ∨ Response.statusOf e = 500 := by
  unfold Response.statusOf
  split
  · exact .inl rfl
  · split
    · exact .inr (.inl rfl)
    · exact .inr (.inr rfl)

theorem status_ofError (action : String) (e : StoreError) :
    400 ≤ (Response.ofError action e).status := by
  show 400 ≤ Response.statusOf e
  rcases statusOf_cases e with h | h | h <;> omega

theorem serves_get (hname : ¬(s.collection = "" ∧ settings.emptyNames = .reject))
    (ha : request.Addresses s (some k)) (hm : request.method = "GET")
    (h : (getPlan s.collection k).Yields settings t response after) :
    Serves s (settings.meant s.collection) t request response after := by
  obtain ⟨r, hr, rfl, rfl⟩ := h
  have haddress := Settings.address_of_not_refused
    (not_or.2 ⟨hname, ne_empty_of_reaches ha.reaches⟩)
  simp only [Call.operation, effect_get haddress] at hr ⊢
  split at hr
  · obtain ⟨d?, rfl, hd⟩ := eq_ok_of_map hr
    cases hd
    cases hd : t.document? (settings.meant s.collection) k with
    | none => exact .misses ha (.inl hm) hd rfl
    | some d => exact .finds ha hm hd
  · next hc =>
    obtain rfl := eq_error_of_map hr
    refine .misses ha (.inl hm) (Option.eq_none_iff_forall_ne_some.2 fun d hd => hc ?_) rfl
    exact Contents.contains_of_document? hd

theorem serves_set (hname : ¬(s.collection = "" ∧ settings.emptyNames = .reject))
    (ha : request.Addresses s a) (hm : request.Stores)
    (h : (setPlan s.collection (a.getD "") request.body).Yields settings t response after) :
    Serves s (settings.meant s.collection) t request response after := by
  unfold setPlan at h
  split at h
  · next hd =>
    obtain ⟨rfl, rfl⟩ := h
    refine serves_refused (fun _ _ => ⟨hm.other.1, hm.other.2, fun _ hwritten => ?_⟩)
      (status_ofError _ _)
    obtain ⟨d, hok⟩ := Document.written_iff.1 hwritten
    rw [Document.accept_eq_ok_iff.2 hok] at hd
    cases hd
  · next d hd =>
    cases a with
    | some k =>
      obtain ⟨r, hr, rfl, rfl⟩ := h
      have hnames : ¬(Operation.set s.collection k d).Refused settings :=
        not_or.2 ⟨hname, ne_empty_of_reaches ha.reaches⟩
      simp only [Call.operation, Option.getD_some, Settings.effect_set hnames] at hr ⊢
      obtain ⟨-, rfl, -⟩ := eq_ok_of_map hr
      exact .stores ha hm (Document.accept_eq_ok_iff.1 hd)
    | none =>
      obtain ⟨e, rfl, rfl⟩ := h.of_refused (.inr rfl)
      exact serves_refused (fun _ hk => (ha.not_some hk).elim) (status_ofError _ _)

theorem serves_delete (hname : ¬(s.collection = "" ∧ settings.emptyNames = .reject))
    (ha : request.Addresses s a) (hm : request.method = "DELETE")
    (h : (deletePlan s.collection (a.getD "")).Yields settings t response after) :
    Serves s (settings.meant s.collection) t request response after := by
  cases a with
  | some k =>
    obtain ⟨r, hr, rfl, rfl⟩ := h
    have hnames : ¬(Operation.delete s.collection k).Refused settings :=
      not_or.2 ⟨hname, ne_empty_of_reaches ha.reaches⟩
    simp only [Call.operation, Option.getD_some] at hr ⊢
    cases hc : t.get? (settings.meant s.collection) with
    | none =>
      rw [Settings.effect_delete_of_none hnames hc] at hr ⊢
      obtain rfl := eq_error_of_map hr
      exact .misses ha (.inr hm) (by rw [Contents.document?, hc]; rfl) rfl
    | some table =>
      rw [Settings.effect_delete_of_some hnames hc] at hr ⊢
      split at hr
      · next hk =>
        obtain ⟨wasThere, rfl, hw⟩ := eq_ok_of_map hr
        cases hw
        rw [if_pos hk]
        exact .removes ha hm hc hk
      · next hk =>
        obtain ⟨wasThere, rfl, hw⟩ := eq_ok_of_map hr
        cases hw
        rw [if_neg hk]
        refine .misses ha (.inr hm) ?_ rfl
        rw [Contents.document?, hc]
        simpa [Table.contains] using hk
  | none =>
    obtain ⟨e, rfl, rfl⟩ := Plan.Yields.of_refused h (.inr rfl)
    exact serves_refused (fun _ hk => (ha.not_some hk).elim) (status_ofError _ _)

theorem serves_dispatch {params : ListParams}
    (hname : ¬(s.collection = "" ∧ settings.emptyNames = .reject)) (ha : request.Addresses s a)
    (h : (dispatch s request.method a params request.body).Yields settings t response after) :
    Serves s (settings.meant s.collection) t request response after := by
  unfold dispatch at h
  split at h
  · next hm => exact serves_get hname ha hm h
  · next hm =>
    obtain ⟨r, -, rfl, rfl⟩ := h
    rw [contents_effect_of_no_change fun _ => rfl]
    refine .leaves (fun _ hk => (ha.not_some hk).elim) ?_ fun hdelete => ?_
    · cases r with
      | ok listing => exact fun h => nomatch h
      | error e =>
        have hrefused := status_ofError "Failed to fetch items" e
        exact fun h => by rw [h] at hrefused; omega
    · exact absurd (hm.symm.trans hdelete) (by decide)
  · next hm => exact serves_set hname ha (.inl hm) h
  · next hm => exact serves_set hname ha (.inr hm) h
  · next hm => exact serves_delete hname ha hm h
  · next hpost hput hdelete hget hlist =>
    obtain ⟨rfl, rfl⟩ := h
    refine serves_refused (fun k hk => ?_) (by show 400 ≤ 405; decide)
    have ha := reaches_unique ha.reaches hk.reaches
    exact ⟨fun hm => hget k hm ha, hdelete, fun hm => (hm.elim hpost hput).elim⟩

/-- What comes of a request is told by the contents of the store. -/
theorem serves_plan (hname : ¬(s.collection = "" ∧ settings.emptyNames = .reject))
    (h : (plan s request).Yields settings t response after) :
    Serves s (settings.meant s.collection) t request response after := by
  rcases plan_cases s request with ⟨a, params, ha, hplan⟩ | ⟨hnot, hrefuses⟩
  · exact serves_dispatch hname ha (hplan ▸ h)
  · cases hp : plan s request with
    | respond told =>
      rw [hp] at h hrefuses
      obtain ⟨rfl, rfl⟩ := h
      exact serves_refused (fun k hk => absurd hk (hnot _)) hrefuses
    | ask call answer =>
      rw [hp] at hrefuses
      exact hrefuses.elim

end Serving

end Http

end JsonCabinet
