import JsonCabinet.Proofs.Http.Plans

/-!
# What is asked of a backend

The binding knows nothing of a backend but its answers. A request that is understood asks for one
call at most, and which one is told by its method, its addressee and its body alone
(`Request.Asks`). The answer to the call tells the response (`Tells`), and a request that asks for
nothing is refused by the binding itself (`Request.Refused`). Nothing else can happen
(`dispatch_of_asks`, `dispatch_of_not_asks`), so the status can be read back into what the backend
has answered.
-/

namespace JsonCabinet

namespace Call

/-- What is said if the call fails. -/
def complaint : Call → String
  | .get .. => "Failed to retrieve item"
  | .list .. => "Failed to fetch items"
  | .set .. => "Failed to store data"
  | .delete .. => "Failed to delete data"

/-- The call gave an item or a page, or it stored or removed a document. -/
def Succeeds : (call : Call) → Except StoreError call.Answer → Prop
  | .get .., .ok found => found.isSome = true
  | .delete .., .ok wasThere => wasThere = true
  | .list .., .ok _ | .set .., .ok _ => True
  | _, .error _ => False

/-- The call did not meet what it is about: a document, or the collection. -/
def Misses : (call : Call) → Except StoreError call.Answer → Prop
  | .get .., .ok found => found = none
  | .delete .., .ok wasThere => wasThere = false
  | .list .., .ok _ | .set .., .ok _ => False
  | _, .error e => (∃ name, e = .collectionNotFound name) ∨ ∃ c k, e = .itemNotFound c k

end Call

namespace Http

/-! ## What a request asks for -/

section Asking

variable (s : HttpSettings) (a : Addressee) (params : ListParams) (request : Request)

/-- A request that is about this addressee, with these parameters, asks for this call. A write or a
deletion that is about no key is one of the empty key. -/
inductive Request.Asks : Call → Prop
  | get {k : String} (hm : request.method = "GET") (ha : a = some k) :
    Asks (.get s.collection k)
  | list (hm : request.method = "GET") (ha : a = none) :
    Asks (.list s.collection (params.limit.getD s.defaultLimit) (params.page.getD 1))
  | set {d : Document} (hm : request.Stores) (hd : Document.ofBytes request.body = .ok d) :
    Asks (.set s.collection (a.getD "") d)
  | delete (hm : request.method = "DELETE") : Asks (.delete s.collection (a.getD ""))

/-- The request asks for nothing, and this is what is said about it. -/
inductive Request.Refused : Response → Prop
  | noDocument {e : Json.Malformed} (hm : request.Stores)
    (hd : Document.ofBytes request.body = .error e) :
    Refused (.plain 400 ("Failed to store data" ++ ": " ++
      ("validation error: " ++ ("invalid JSON document: " ++ e.message)) ++ "\n"))
  | noMethod (hget : request.method ≠ "GET") (hdelete : request.method ≠ "DELETE")
    (hstores : ¬request.Stores) : Refused (.plain 405 "Method not allowed\n")

end Asking

/-- What the answer to a call is told by. -/
inductive Tells : (call : Call) → Except StoreError call.Answer → Response → Prop
  | item {c k : String} {d : Document} : Tells (.get c k) (.ok (some d)) (.json d.bytes)
  | noItem {c k : String} :
    Tells (.get c k) (.ok none) (.plain 404 "Failed to retrieve item: item not found\n")
  | page {c : String} {limit page : Int} {listing : ListPage} :
    Tells (.list c limit page) (.ok listing) (.json (writePage listing page limit))
  | stored {c k : String} {d : Document} : Tells (.set c k d) (.ok ()) (.empty 201)
  | removed {c k : String} : Tells (.delete c k) (.ok true) (.empty 200)
  | notThere {c k : String} :
    Tells (.delete c k) (.ok false) (.plain 404 "Item not found\n")
  | failed {call : Call} {e : StoreError} :
    Tells call (.error e)
      (.plain (Response.statusOf e) (call.complaint ++ ": " ++ e.message ++ "\n"))

variable {s : HttpSettings} {a : Addressee} {params : ListParams} {request : Request}
  {call : Call} {response : Response}

theorem asks_iff : (∃ call, request.Asks s a params call) ↔
    request.method = "GET" ∨ request.method = "DELETE" ∨
      request.Stores ∧ Document.Written request.body := by
  rw [Document.written_iff]
  constructor
  · rintro ⟨_, hm | hm | ⟨hm, hd⟩ | hm⟩
    · exact .inl hm
    · exact .inl hm
    · exact .inr (.inr ⟨hm, _, hd⟩)
    · exact .inr (.inl hm)
  · rintro (hm | hm | ⟨hm, d, hd⟩)
    · cases a with
      | none => exact ⟨_, .list hm rfl⟩
      | some k => exact ⟨_, .get hm rfl⟩
    · exact ⟨_, .delete hm⟩
    · exact ⟨_, .set hm hd⟩

theorem Request.Asks.unique {call' : Call} (h : request.Asks s a params call)
    (h' : request.Asks s a params call') : call' = call := by
  cases h <;> cases h' <;> simp_all [Request.Stores]

/-! ## What is done -/

theorem tells_get (c k : String) :
    ∃ answer, getPlan c k = .ask (.get c k) answer ∧ ∀ r, Tells (.get c k) r (answer r) := by
  refine ⟨_, rfl, fun r => ?_⟩
  match r with
  | .ok (some d) => exact .item
  | .ok none => exact .noItem
  | .error e => exact .failed

theorem tells_list (c : String) (limit page : Int) :
    ∃ answer, listPlan c limit page = .ask (.list c limit page) answer ∧
      ∀ r, Tells (.list c limit page) r (answer r) := by
  refine ⟨_, rfl, fun r => ?_⟩
  match r with
  | .ok listing => exact .page
  | .error e => exact .failed

theorem tells_set (c k : String) {body : Bytes} {d : Document}
    (hd : Document.ofBytes body = .ok d) :
    ∃ answer, setPlan c k body = .ask (.set c k d) answer ∧
      ∀ r, Tells (.set c k d) r (answer r) := by
  rw [setPlan, Document.accept_eq_ok_iff.2 hd]
  refine ⟨_, rfl, fun r => ?_⟩
  match r with
  | .ok () => exact .stored
  | .error e => exact .failed

theorem tells_delete (c k : String) :
    ∃ answer, deletePlan c k = .ask (.delete c k) answer ∧
      ∀ r, Tells (.delete c k) r (answer r) := by
  refine ⟨_, rfl, fun r => ?_⟩
  match r with
  | .ok true => exact .removed
  | .ok false => exact .notThere
  | .error e => exact .failed

theorem dispatch_of_stores (hm : request.Stores) :
    dispatch s request.method a params request.body =
      setPlan s.collection (a.getD "") request.body := by
  rcases hm with hm | hm <;> rw [hm] <;> rfl

theorem dispatch_of_asks (h : request.Asks s a params call) :
    ∃ answer, dispatch s request.method a params request.body = .ask call answer ∧
      ∀ r, Tells call r (answer r) := by
  cases h with
  | get hm ha =>
    rw [hm, ha]
    exact tells_get _ _
  | list hm ha =>
    rw [hm, ha]
    exact tells_list _ _ _
  | set hm hd =>
    rw [dispatch_of_stores hm]
    exact tells_set _ _ hd
  | delete hm =>
    rw [hm]
    exact tells_delete _ _

theorem dispatch_of_not_asks (h : ∀ call, ¬request.Asks s a params call) :
    ∃ response, dispatch s request.method a params request.body = .respond response ∧
      request.Refused response := by
  have hnone := mt asks_iff.2 (not_exists.2 h)
  rw [not_or, not_or, Document.written_iff] at hnone
  obtain ⟨hget, hdelete, hset⟩ := hnone
  by_cases hm : request.Stores
  · rw [dispatch_of_stores hm]
    cases hd : Document.ofBytes request.body with
    | ok d => exact absurd ⟨hm, d, hd⟩ hset
    | error e => exact ⟨_, by rw [setPlan, hd]; rfl, .noDocument hm hd⟩
  · refine ⟨_, ?_, .noMethod hget hdelete hm⟩
    unfold dispatch
    split
    · next hm' => exact absurd hm' hget
    · next hm' => exact absurd hm' hget
    · next hm' => exact absurd (.inl hm') hm
    · next hm' => exact absurd (.inr hm') hm
    · next hm' => exact absurd hm' hdelete
    · rfl

/-! ## What the status tells -/

theorem statusOf_eq_404_iff {e : StoreError} : Response.statusOf e = 404 ↔
    (∃ name, e = .collectionNotFound name) ∨ ∃ c k, e = .itemNotFound c k := by
  cases e <;> simp [Response.statusOf, StoreError.isNotFound, StoreError.isValidation]

theorem statusOf_eq_400_iff {e : StoreError} :
    Response.statusOf e = 400 ↔ ∃ why, e = .validation why := by
  cases e <;> simp [Response.statusOf, StoreError.isNotFound, StoreError.isValidation]

theorem statusOf_eq_500_iff {e : StoreError} :
    Response.statusOf e = 500 ↔ Response.statusOf e ≠ 404 ∧ Response.statusOf e ≠ 400 := by
  rcases statusOf_cases e with h | h | h <;> simp [h]

theorem misses_error {e : StoreError} : call.Misses (.error e) ↔
    (∃ name, e = .collectionNotFound name) ∨ ∃ c k, e = .itemNotFound c k := by
  cases call <;> rfl

theorem not_succeeds_error {e : StoreError} : ¬call.Succeeds (.error e) := by
  cases call <;> exact id

@[simp]
theorem status_json (body : Bytes) : (Response.json body).status = 200 := rfl

@[simp]
theorem status_empty (status : Nat) : (Response.empty status).status = status := rfl

@[simp]
theorem status_plain (status : Nat) (text : String) :
    (Response.plain status text).status = status := rfl

namespace Tells

variable {r : Except StoreError call.Answer}

theorem success_iff (h : Tells call r response) :
    200 ≤ response.status ∧ response.status < 300 ↔ call.Succeeds r := by
  cases h with
  | item | page | stored | removed | noItem | notThere => simp [Call.Succeeds]
  | @failed _ e =>
    refine iff_of_false (fun h => ?_) not_succeeds_error
    rcases statusOf_cases e with he | he | he <;> simp [he] at h

theorem missing_iff (h : Tells call r response) : response.status = 404 ↔ call.Misses r := by
  cases h with
  | item | page | stored | removed | noItem | notThere => simp [Call.Misses]
  | failed => exact statusOf_eq_404_iff.trans misses_error.symm

theorem invalid_iff (h : Tells call r response) :
    response.status = 400 ↔ ∃ why, r = .error (.validation why) := by
  cases h with
  | item | page | stored | removed | noItem | notThere => simp
  | failed => simpa using statusOf_eq_400_iff

theorem broken_iff (h : Tells call r response) :
    response.status = 500 ↔
      ∃ e, r = .error e ∧ ¬call.Misses r ∧ ∀ why, e ≠ .validation why := by
  cases h with
  | item | page | stored | removed | noItem | notThere => simp
  | @failed _ e =>
    rw [status_plain, statusOf_eq_500_iff, Ne, Ne, statusOf_eq_404_iff, statusOf_eq_400_iff,
      ← @misses_error call, not_exists]
    simp

theorem status_ne_405 (h : Tells call r response) : response.status ≠ 405 := by
  cases h with
  | item | page | stored | removed | noItem | notThere => simp
  | @failed _ e => rcases statusOf_cases e with he | he | he <;> simp [he]

end Tells

/-! ## One call at most -/

/-- What is to come of a request that is about this addressee, with these parameters, on a backend
in this state, where these calls were made before: the response, the state, and the calls. -/
structure Faithful {σ : Type} (s : HttpSettings) (a : Addressee) (params : ListParams)
    (request : Request) (b : Backend σ) (x : σ) (past : List Call)
    (o : Response × σ × List Call) : Prop where
  asked_iff : (∃ call, request.Asks s a params call) ↔
    request.method = "GET" ∨ request.method = "DELETE" ∨
      request.Stores ∧ Document.Written request.body
  once : ∀ call, request.Asks s a params call →
    o.2 = ((b.perform call x).2, past ++ [call]) ∧ Tells call (b.perform call x).1 o.1
  never : (∀ call, ¬request.Asks s a params call) → o.2 = (x, past) ∧ request.Refused o.1
  success_iff : 200 ≤ o.1.status ∧ o.1.status < 300 ↔
    ∃ call, request.Asks s a params call ∧ call.Succeeds (b.perform call x).1
  missing_iff : o.1.status = 404 ↔
    ∃ call, request.Asks s a params call ∧ call.Misses (b.perform call x).1
  invalid_iff : o.1.status = 400 ↔ request.Stores ∧ ¬Document.Written request.body ∨
    ∃ call, request.Asks s a params call ∧ ∃ why, (b.perform call x).1 = .error (.validation why)
  unsupported_iff : o.1.status = 405 ↔
    request.method ≠ "GET" ∧ request.method ≠ "DELETE" ∧ ¬request.Stores
  broken_iff : o.1.status = 500 ↔ ∃ call, request.Asks s a params call ∧
    ∃ e, (b.perform call x).1 = .error e ∧ ¬call.Misses (b.perform call x).1 ∧
      ∀ why, e ≠ .validation why

section Asked

variable {σ : Type} {b : Backend σ} {x : σ} {past : List Call}

theorem plan_of_reaches (ha : request.Reaches s a)
    (hq : ListParams.ofQuery request.query = .ok params)
    (hl : request.body.length ≤ bodyLimit) :
    plan s request = dispatch s request.method a params request.body := by
  rcases plan_of_path s request with ⟨a', ha', hplan⟩ | ⟨hnot, -⟩
  · rw [hplan, reaches_unique ha' ha, planFor, hq]
    exact if_neg (Nat.not_lt.2 hl)
  · exact absurd ha (hnot a)

theorem Request.Asks.iff_eq (h : request.Asks s a params call) (call' : Call) :
    request.Asks s a params call' ↔ call' = call :=
  ⟨h.unique, fun he => he ▸ h⟩

theorem Request.Asks.faithful (h : request.Asks s a params call)
    (ht : Tells call (b.perform call x).1 response) :
    Faithful s a params request b x past (response, (b.perform call x).2, past ++ [call]) where
  asked_iff := asks_iff
  once call' h' := by
    obtain rfl := h.unique h'
    exact ⟨rfl, ht⟩
  never hnone := absurd h (hnone call)
  success_iff := by simpa only [h.iff_eq, exists_eq_left] using ht.success_iff
  missing_iff := by simpa only [h.iff_eq, exists_eq_left] using ht.missing_iff
  invalid_iff := by
    have hwritten : ¬(request.Stores ∧ ¬Document.Written request.body) := by
      rintro ⟨hm, hnot⟩
      rcases asks_iff.1 ⟨call, h⟩ with hget | hdelete | hset
      · exact hm.other.1 hget
      · exact hm.other.2 hdelete
      · exact hnot hset.2
    rw [or_iff_right hwritten]
    simpa only [h.iff_eq, exists_eq_left] using ht.invalid_iff
  unsupported_iff := by
    refine iff_of_false ht.status_ne_405 ?_
    rintro ⟨hget, hdelete, hstores⟩
    rcases asks_iff.1 ⟨call, h⟩ with hm | hm | hm
    · exact hget hm
    · exact hdelete hm
    · exact hstores hm.1
  broken_iff := by simpa only [h.iff_eq, exists_eq_left] using ht.broken_iff

theorem Request.Refused.faithful (hnone : ∀ call, ¬request.Asks s a params call)
    (h : request.Refused response) :
    Faithful s a params request b x past (response, x, past) where
  asked_iff := asks_iff
  once call h' := absurd h' (hnone call)
  never _ := ⟨rfl, h⟩
  success_iff := by cases h <;> simp [hnone]
  missing_iff := by cases h <;> simp [hnone]
  invalid_iff := by
    cases h with
    | noDocument hm hd => simp [hm, Document.written_iff, hd]
    | noMethod _ _ hstores => simp [hnone, hstores]
  unsupported_iff := by
    cases h with
    | noDocument hm hd => simp [hm]
    | noMethod hget hdelete hstores => simp [hget, hdelete, hstores]
  broken_iff := by cases h <;> simp [hnone]

/-- Whatever the backend is, a request that reaches its handler makes the one call that it asks for
and is answered with what that call gave, or it asks for none and is refused. -/
theorem backend_answer_is_told (s : HttpSettings) (b : Backend σ) (x : σ) (past : List Call)
    (ha : request.Reaches s a) (hq : ListParams.ofQuery request.query = .ok params)
    (hl : request.body.length ≤ bodyLimit) :
    Faithful s a params request b x past (respond s b.recording request (x, past)) := by
  rw [respond, plan_of_reaches ha hq hl]
  by_cases h : ∃ call, request.Asks s a params call
  · obtain ⟨call, hcall⟩ := h
    obtain ⟨answer, hdispatch, htells⟩ := dispatch_of_asks hcall
    rw [hdispatch]
    exact hcall.faithful (htells _)
  · rw [not_exists] at h
    obtain ⟨response, hdispatch, hrefused⟩ := dispatch_of_not_asks h
    rw [hdispatch]
    exact hrefused.faithful h

end Asked

/-! ### A failure is told -/

def leafing : Request := ⟨"GET", Bytes.ofString "/?page=2", []⟩

theorem missing_collection_is_told :
    leafing.Reaches .initial none ∧ ListParams.ofQuery leafing.query = .ok ⟨none, some 2⟩ ∧
      leafing.body.length ≤ bodyLimit ∧
      respond .initial (Backend.failing (.collectionNotFound "default")).recording leafing
          ((), []) =
        (.plain 404 "Failed to fetch items: collection not found: default\n", (),
          [.list "default" 10 2]) := by
  have hroute : Route.match? (normalBase HttpSettings.initial.basePath)
      (Target.ofBytes leafing.target).path = some .collection := by cbv
  have hreaches : leafing.Reaches .initial none := by rw [Request.Reaches, hroute]
  have hquery : ListParams.ofQuery leafing.query = .ok ⟨none, some 2⟩ := by cbv
  have hbody : leafing.body.length ≤ bodyLimit := by cbv
  have hfaithful := backend_answer_is_told .initial
    (Backend.failing (.collectionNotFound "default")) () [] hreaches hquery hbody
  obtain ⟨hcalls, htells⟩ := hfaithful.once (.list "default" 10 2) (.list rfl rfl)
  refine ⟨hreaches, hquery, hbody, Prod.ext ?_ hcalls⟩
  have htold : ∀ response, Tells (.list "default" 10 2)
      (.error (.collectionNotFound "default")) response →
      response = .plain 404 "Failed to fetch items: collection not found: default\n" := by
    rintro _ ⟨⟩
    decide
  exact htold _ htells

end Http

end JsonCabinet
