import JsonCabinet.Backend
import JsonCabinet.Http.Query
import JsonCabinet.Http.Route

/-!
# A binding of a store to HTTP

One collection is bound to one base path. A request is answered at once, or after exactly one call
to the backend; which of the two is decided before the backend is asked, so a binding is a plan
for each request. Refusals are told in plain text.
-/

namespace JsonCabinet.Http

/-! ## Settings -/

structure HttpSettings where
  listenAddress : String
  basePath : String
  collection : String
  defaultLimit : Int
  deriving DecidableEq, Repr

namespace HttpSettings

def initial : HttpSettings where
  listenAddress := "127.0.0.1:8080"
  basePath := "/"
  collection := "default"
  defaultLimit := 10

inductive Choice
  | listenAddress (address : String)
  | basePath (path : String)
  | collection (name : String)
  | defaultLimit (limit : Int)
  deriving DecidableEq, Repr

def choose (s : HttpSettings) : Choice → HttpSettings
  | .listenAddress address => { s with listenAddress := address }
  | .basePath path => { s with basePath := path }
  | .collection name => { s with collection := name }
  | .defaultLimit limit => { s with defaultLimit := limit }

def ofChoices (choices : List Choice) : HttpSettings := choices.foldl choose initial

end HttpSettings

/-! ## Messages -/

structure Request where
  method : String
  target : Bytes
  body : Bytes
  deriving DecidableEq, Repr

structure Response where
  status : Nat
  contentType : Option String
  body : Bytes
  deriving DecidableEq, Repr

namespace Response

def empty (status : Nat) : Response := ⟨status, none, []⟩

def plain (status : Nat) (text : String) : Response :=
  ⟨status, some "text/plain; charset=utf-8", Bytes.ofString text⟩

def json (body : Bytes) : Response := ⟨200, some "application/json", body⟩

def statusOf (e : StoreError) : Nat :=
  if e.isNotFound then 404 else if e.isValidation then 400 else 500

def ofError (action : String) (e : StoreError) : Response :=
  plain (statusOf e) (action ++ ": " ++ e.message ++ "\n")

end Response

/-! ## Plans -/

inductive Plan
  | respond (response : Response)
  | ask (call : Call) (answer : Except StoreError call.Answer → Response)

/-- Carries a plan out on a backend. -/
def Plan.run {σ : Type} (backend : Backend σ) (state : σ) : Plan → Response × σ
  | .respond response => (response, state)
  | .ask call answer =>
    let (result, state) := backend.perform call state
    (answer result, state)

/-- The page as it is sent, with the page number and the limit that were asked for. -/
def writePage (listing : ListPage) (page limit : Int) : Bytes :=
  Json.Layout.compact.writeObject (listing.members ++
    [("page", Bytes.ofString (toString page)), ("limit", Bytes.ofString (toString limit))])

def getPlan (collection key : String) : Plan :=
  .ask (.get collection key) fun
    | .ok (some d) => .json d.bytes
    | .ok none => .ofError "Failed to retrieve item" (.itemNotFound collection key)
    | .error e => .ofError "Failed to retrieve item" e

def listPlan (collection : String) (limit page : Int) : Plan :=
  .ask (.list collection limit page) fun
    | .ok listing => .json (writePage listing page limit)
    | .error e => .ofError "Failed to fetch items" e

def setPlan (collection key : String) (body : Bytes) : Plan :=
  match Document.accept (Document.ofBytes body) with
  | .error e => .respond (.ofError "Failed to store data" e)
  | .ok d => .ask (.set collection key d) fun
    | .ok _ => .empty 201
    | .error e => .ofError "Failed to store data" e

def deletePlan (collection key : String) : Plan :=
  .ask (.delete collection key) fun
    | .ok true => .empty 200
    | .ok false => .plain 404 "Item not found\n"
    | .error e => .ofError "Failed to delete data" e

/-- What is done for a request once it is understood. -/
def dispatch (s : HttpSettings) (method : String) (addressee : Addressee) (params : ListParams)
    (body : Bytes) : Plan :=
  match method, addressee with
  | "GET", some key => getPlan s.collection key
  | "GET", none =>
    listPlan s.collection (params.limit.getD s.defaultLimit) (params.page.getD 1)
  | "POST", key | "PUT", key => setPlan s.collection (key.getD "") body
  | "DELETE", key => deletePlan s.collection (key.getD "")
  | _, _ => .respond (.plain 405 "Method not allowed\n")

/-- The greatest body that is read. -/
def bodyLimit : Nat := 2097152

/-- The plan for what a path addresses: the query is looked at before the body. -/
def planFor (s : HttpSettings) (addressee : Addressee) (request : Request) (query : Bytes) :
    Plan :=
  match ListParams.ofQuery query with
  | .error e =>
    .respond (.plain 400 ("Failed to deserialize query string: " ++ e.message))
  | .ok params =>
    if bodyLimit < request.body.length then
      .respond (.plain 413 "Failed to buffer the request body: length limit exceeded")
    else dispatch s request.method addressee params request.body

/-- An item is addressed by one capture, so a base with parameters has no items that can be asked
for. -/
def captureCountText (count : Nat) : String :=
  s!"Wrong number of path arguments for `Path`. Expected 1 but got {count}. " ++
  "Note that multiple parameters must be extracted with a tuple `Path<(_, _)>` " ++
  "or a struct `Path<YourParams>`"

/-- The plan for a request. -/
def plan (s : HttpSettings) (request : Request) : Plan :=
  let target := Target.ofBytes request.target
  match Route.match? (normalBase s.basePath) target.path with
  | none => .respond (.empty 404)
  | some .collection => planFor s none request target.query
  | some (.item captures) => match decodeCaptures captures with
    | .error name => .respond (.plain 400 s!"Invalid URL: Invalid UTF-8 in `{name}`")
    | .ok [rest] => planFor s (addresseeOf rest) request target.query
    | .ok values => .respond (.plain 500 (captureCountText values.length))

/-- Answers a request from a backend. -/
def respond {σ : Type} (s : HttpSettings) (backend : Backend σ) (request : Request) (state : σ) :
    Response × σ :=
  (plan s request).run backend state

end JsonCabinet.Http
