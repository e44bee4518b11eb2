import JsonCabinet.Proofs.Http.Calls
import JsonCabinet.Proofs.Http.Exchanges
import JsonCabinet.Proofs.Http.Routing

/-!
# Keys within paths

A key is spelled in the last segment of a path, each byte of it as it stands or by its number
(`Spells`). Decoding gives back the bytes of the key whatever the spelling is
(`percentDecode_spelling`), and the segments in front of it stay behind their slashes
(`exists_decoded_segments`), so that the last piece of what was spelled is addressed
(`Request.Spells.isAbout`). Two spellings of a key are then one key to every backend, and what was
stored under the one is sent for the other (`sent_as_stored`).
-/

namespace JsonCabinet.Http

open Files

/-! ## Spellings of bytes -/

/-- The byte stands for itself in a segment of a path. -/
def IsPlain (b : UInt8) : Prop := b ≠ 0x25 ∧ b ≠ 0x3F ∧ b ≠ 0x23 ∧ b ≠ slash

instance : DecidablePred IsPlain := fun _ => inferInstanceAs (Decidable (_ ∧ _))

/-- What a byte may be written as: itself, or a percent sign and two hexadecimal digits. -/
inductive Octet (b : UInt8) : Bytes → Prop
  | plain (hb : IsPlain b) : Octet b [b]
  | escape {h l : UInt8} {high low : Nat} (hh : Bytes.hexValue? h = some high)
    (hl : Bytes.hexValue? l = some low) (hb : 16 * high + low = b.toNat) :
    Octet b [0x25, h, l]

/-- The bytes may be written like this, one by one. -/
inductive Spells : Bytes → Bytes → Prop
  | nil : Spells [] []
  | cons {b : UInt8} {k o w : Bytes} (ho : Octet b o) (hw : Spells k w) :
    Spells (b :: k) (o ++ w)

theorem percentDecode_cons_of_ne {b : UInt8} (hb : b ≠ 0x25) (s : Bytes) :
    percentDecode (b :: s) = b :: percentDecode s := by
  match s with
  | [] | [_] => rfl
  | _ :: _ :: _ => rw [percentDecode, if_neg (by simpa using hb)]

theorem percentDecode_octet {b : UInt8} {o : Bytes} (ho : Octet b o) (s : Bytes) :
    percentDecode (o ++ s) = b :: percentDecode s := by
  cases ho with
  | plain hb => exact percentDecode_cons_of_ne hb.1 s
  | @escape h l high low hh hl hb =>
    have hdecode : percentDecode (0x25 :: h :: l :: s) =
        UInt8.ofNat (16 * high + low) :: percentDecode s := by
      rw [percentDecode, if_pos (beq_self_eq_true _), hh, hl]
    rw [hb, UInt8.ofNat_toNat] at hdecode
    exact hdecode

/-- Decoding undoes any spelling. -/
theorem percentDecode_spelling {k w : Bytes} (h : Spells k w) : percentDecode w = k := by
  induction h with
  | nil => rfl
  | cons ho _ ih => rw [percentDecode_octet ho, ih]

theorem Spells.ne_nil {k w : Bytes} (h : Spells k w) (hk : k ≠ []) : w ≠ [] := by
  rintro rfl
  exact hk (percentDecode_spelling h).symm

/-- The target does not end within a spelling. -/
theorem Spells.no_mark {k w : Bytes} (h : Spells k w) : ∀ b ∈ w, b ≠ 0x3F ∧ b ≠ 0x23 := by
  have hhex {b : UInt8} {n : Nat} (hb : Bytes.hexValue? b = some n) : b ≠ 0x3F ∧ b ≠ 0x23 := by
    constructor <;> rintro rfl <;> cases hb
  induction h with
  | nil => exact List.forall_mem_nil _
  | cons ho _ ih =>
    refine List.forall_mem_append.2 ⟨?_, ih⟩
    cases ho with
    | plain hb => simpa using ⟨hb.2.1, hb.2.2.1⟩
    | escape hh hl =>
      simp only [List.forall_mem_cons]
      exact ⟨by decide, hhex hh, hhex hl, List.forall_mem_nil _⟩

/-! ## Segments -/

/-- No escape reaches over a slash. -/
theorem percentDecode_append_slash (p s : Bytes) :
    percentDecode (p ++ slash :: s) = percentDecode p ++ slash :: percentDecode s := by
  have hslash : percentDecode (slash :: s) = slash :: percentDecode s :=
    percentDecode_cons_of_ne (by decide) s
  have hend (c : UInt8) : percentDecode (c :: slash :: s) = c :: slash :: percentDecode s := by
    cases s with
    | nil => rfl
    | cons b s =>
      rw [← hslash, percentDecode]
      split <;> rfl
  fun_induction percentDecode p with
  | case1 => exact hslash
  | case2 c => exact hend c
  | case3 b c =>
    simp only [List.cons_append, List.nil_append, percentDecode, hend]
    split
    · split
      · next hnone => cases hnone
      · rfl
    · rfl
  | case4 b h l rest hb high low hh hl ih =>
    simp only [List.cons_append, percentDecode, hb, hh, hl, if_true, ih]
  | case5 b h l rest hb hnot ih =>
    simp only [List.cons_append, percentDecode, hb, if_true] at ih ⊢
    rw [ih]
  | case6 b h l rest hb ih =>
    simp only [List.cons_append, percentDecode, hb] at ih ⊢
    rw [ih]
    rfl

/-- The segments, each with a slash behind it. -/
def closedSegments (segments : List Bytes) : Bytes := segments.flatMap (· ++ [slash])

/-- Segments in front of a text are decoded by themselves, and stay apart from it. -/
theorem exists_decoded_segments {segments : List Bytes}
    (h : ∀ p ∈ segments, Bytes.IsUtf8 (percentDecode p)) (w : Bytes) :
    ∃ front, percentDecode (closedSegments segments ++ w) =
        Bytes.ofString front ++ percentDecode w ∧
      (front = "" ∨ ∃ before, front = before ++ "/") := by
  induction segments with
  | nil => exact ⟨"", rfl, .inl rfl⟩
  | cons p segments ih =>
    obtain ⟨⟨text, htext⟩, hrest⟩ := List.forall_mem_cons.1 h
    obtain ⟨front, hfront, hends⟩ := ih hrest
    have hcut : closedSegments (p :: segments) ++ w =
        p ++ slash :: (closedSegments segments ++ w) := by
      simp [closedSegments]
    have hbytes : Bytes.ofString "/" = [slash] := by decide
    refine ⟨text ++ "/" ++ front, ?_, .inr ?_⟩
    · rw [hcut, percentDecode_append_slash, hfront, ← htext, Bytes.ofString_append,
        Bytes.ofString_append, hbytes]
      simp
    · rcases hends with rfl | ⟨before, rfl⟩
      · exact ⟨text, String.append_empty⟩
      · exact ⟨text ++ "/" ++ before, by simp only [String.append_assoc]⟩

/-- What stands in front of a slash does not matter for the last piece. -/
theorem LastPiece.append {text piece front : String} (h : LastPiece text piece)
    (hfront : front = "" ∨ ∃ before, front = before ++ "/") : LastPiece (front ++ text) piece := by
  refine ⟨h.1, ?_⟩
  rcases hfront with rfl | ⟨before, rfl⟩
  · rw [String.empty_append]
    exact h.2
  · rcases h.2 with rfl | ⟨between, rfl⟩
    · exact .inr ⟨before, rfl⟩
    · exact .inr ⟨before ++ "/" ++ between, by simp only [String.append_assoc]⟩

/-! ## Targets that begin with their path -/

theorem cutAt_fst (stop : UInt8) (s : Bytes) : (cutAt stop s).1 = s.takeWhile (· != stop) := by
  have hcut := List.takeWhile_append_dropWhile (p := (· != stop)) (l := s)
  unfold cutAt
  split
  · next hnil =>
    rw [hnil, List.append_nil] at hcut
    exact hcut.symm
  · rfl

theorem cutAt_append {stop : UInt8} {p : Bytes} (hp : ∀ b ∈ p, b ≠ stop) (s : Bytes) :
    (cutAt stop (p ++ s)).1 = p ++ (cutAt stop s).1 := by
  rw [cutAt_fst, cutAt_fst, List.takeWhile_append_of_pos fun b hb => bne_iff_ne.2 (hp b hb)]

/-- The path ends at a question mark, at a number sign or with the target. -/
theorem path_ofBytes {p tail : Bytes} (hp : p.head? = some slash)
    (hmark : ∀ b ∈ p, b ≠ 0x3F ∧ b ≠ 0x23)
    (htail : ∀ b, tail.head? = some b → b = 0x3F ∨ b = 0x23) :
    (Target.ofBytes (p ++ tail)).path = p := by
  obtain ⟨p, rfl⟩ := List.head?_eq_some_iff.1 hp
  have hquery : (cutAt 0x3F (cutAt 0x23 tail).1).1 = [] := by
    rw [cutAt_fst, cutAt_fst]
    cases tail with
    | nil => rfl
    | cons b tail => rcases htail b rfl with rfl | rfl <;> rfl
  have horigin : Target.ofBytes (slash :: p ++ tail) =
      .ofOrigin (slash :: p ++ (cutAt 0x23 tail).1) := by
    rw [Target.ofBytes, cutAt_append fun b hb => (hmark b hb).2]
    rfl
  rw [horigin]
  show (cutAt 0x3F _).1 = _
  rw [cutAt_append fun b hb => (hmark b hb).1, hquery, List.append_nil]

/-! ## Spellings of keys -/

/-- What the path has behind the base is this, and nothing else of the path is kept. -/
def Request.GoesOn (s : HttpSettings) (r : Bytes) (request : Request) : Prop :=
  Route.match? (normalBase s.basePath) request.path = some (.item [⟨restName, r⟩])

/-- The last segment of the path spells the key, behind segments in UTF-8. -/
def Request.Spells (s : HttpSettings) (k : String) (request : Request) : Prop :=
  ∃ segments w, (∀ p ∈ segments, Bytes.IsUtf8 (percentDecode p)) ∧
    Http.Spells (Bytes.ofString k) w ∧ request.GoesOn s (closedSegments segments ++ w)

/-- The path leads to this key, or to the collection, and nothing else of it counts. -/
structure Request.IsAbout (s : HttpSettings) (a : Addressee) (request : Request) : Prop where
  reaches : request.Reaches s a
  plan_eq : plan s request = planFor s a request request.query

section Spelling

variable {s : HttpSettings} {k : String} {request request' : Request}

theorem goesOn_of_literal (h : IsLiteral s.basePath) {r : Bytes} (hr : r ≠ [])
    (hpath : request.path = normalBase s.basePath ++ slash :: r) : request.GoesOn s r := by
  rw [Request.GoesOn, hpath, match?_item (colon_not_mem_normalBase h) hr]

theorem Request.GoesOn.isAbout {r : Bytes} {text piece : String} (h : request.GoesOn s r)
    (htext : percentDecode r = Bytes.ofString text) (hpiece : LastPiece text piece) :
    request.IsAbout s (if piece = "" then none else some piece) := by
  have hreaches : request.Reaches s (addresseeOf text) := by
    have hroute : Route.match? (normalBase s.basePath) (Target.ofBytes request.target).path =
        some (.item [⟨restName, r⟩]) := h
    rw [Request.Reaches, hroute]
    exact ⟨text, decodeCaptures_rest htext, rfl⟩
  rw [hpiece.eq_lastSegment]
  refine ⟨hreaches, ?_⟩
  rcases plan_of_path s request with ⟨a, ha, hplan⟩ | ⟨hnot, -⟩
  · rw [hplan, reaches_unique ha hreaches]
    rfl
  · exact absurd hreaches (hnot _)

/-- A spelling is about the last piece of what it spells. -/
theorem Request.Spells.isAbout {piece : String} (h : request.Spells s k)
    (hpiece : LastPiece k piece) : request.IsAbout s (if piece = "" then none else some piece) := by
  obtain ⟨segments, w, hsegments, hw, hgoesOn⟩ := h
  obtain ⟨front, hdecode, hfront⟩ := exists_decoded_segments hsegments w
  rw [percentDecode_spelling hw, ← Bytes.ofString_append] at hdecode
  exact hgoesOn.isAbout hdecode (hpiece.append hfront)

/-- Where a key has no slash, a spelling is about the key itself. -/
theorem Request.Spells.isAbout_key (h : request.Spells s k) (hk : k ≠ "")
    (hslash : '/' ∉ k.toList) : request.IsAbout s (some k) := by
  have habout := h.isAbout ⟨hslash, .inl rfl⟩
  rwa [if_neg hk] at habout

/-- Where the path leads to counts, and not how it does. -/
theorem Request.IsAbout.plan_congr {a : Addressee} (h : request.IsAbout s a)
    (h' : request'.IsAbout s a) (hmethod : request'.method = request.method)
    (hquery : request'.query = request.query) (hbody : request'.body = request.body) :
    plan s request' = plan s request := by
  rw [h.plan_eq, h'.plan_eq, planFor, planFor, hmethod, hquery, hbody]

end Spelling

/-! ## What is stored under one spelling -/

section Stored

variable {s : HttpSettings} {k : String} {x : Store × FileSystem} {requests : List Request}
  {m put get : Exchange} {past between later : List Exchange}

/-- Nothing is stored over a binding of the empty name where that is refused. -/
theorem name_of_stored (hm : m.input.Stores) (hr : m.status s = 201) :
    ¬(s.collection = "" ∧ m.state.1.settings.emptyNames = .reject) := by
  intro hname
  have hfail : 400 ≤ m.status s := by
    show 400 ≤ ((plan s m.input).run Store.backend m.state).1.status
    rcases plan_cases s m.input with ⟨a, params, -, hplan⟩ | ⟨-, hrefuses⟩
    · rw [hplan, dispatch_of_stores hm, setPlan]
      split
      · exact status_ofError _ _
      · obtain ⟨why, he⟩ : ∃ why, m.state.1.settings.address s.collection (a.getD "") =
            .error (.validation why) := Settings.address_of_refused (.inl hname)
        simp only [Plan.run, Store.backend, Store.set, he]
        exact status_ofError _ _
    · cases hplan : plan s m.input with
      | respond response =>
        rw [hplan] at hrefuses
        exact hrefuses
      | ask call answer =>
        rw [hplan] at hrefuses
        exact hrefuses.elim
  omega

theorem settled_of_exchanges (hsettled : Store.Settled x)
    (hclear : ∀ m ∈ exchanges s x requests, m.Clear s)
    (hsplit : exchanges s x requests = past ++ m :: later) : Store.Settled m.state :=
  invariant_of_trace (P := Exchange.Clear s) (I := fun _ => Store.Settled)
    (fun _ _ _ hok h => (yields_run h hok).2.2) hclear hsettled hsplit

/-- What is stored under a key is sent for it until the key is decided. -/
theorem sent_until_decided {d : Document}
    (hname : ¬(s.collection = "" ∧ x.1.settings.emptyNames = .reject))
    (hsettled : Store.Settled x) (hclear : ∀ m ∈ exchanges s x requests, m.Clear s)
    (hsplit : exchanges s x requests = between ++ get :: later)
    (hd : x.1.contents.document? (x.1.settings.meant s.collection) k = some d)
    (hbetween : ∀ m ∈ between, ¬m.Decides s k) (hget : get.input.Addresses s (some k))
    (hmethod : get.input.method = "GET") : get.response s = .json d.bytes := by
  have hbegin : Keeps s x.1.settings x.1.contents [] x :=
    ⟨rfl, hsettled, fun k v => by simp [Live, StoredAs, not_since_nil, eq_comm]⟩
  obtain ⟨hsettings, hsettled', hlive⟩ :=
    invariant_of_trace (P := Exchange.Clear s) (I := Keeps s x.1.settings x.1.contents)
      (fun past z request hok h => h.exchange (m := ⟨z, request⟩) hname hok) hclear hbegin hsplit
  have hserved := (serves_exchange (hsettings ▸ hname) hsettled' (hclear get (by simp [hsplit]))).1
  rw [hsettings] at hserved
  obtain ⟨e, he, hbytes⟩ := (hlive k d.bytes).2 (.inr ⟨hbetween, d, hd, rfl⟩)
  rcases hserved.of_get hget hmethod with ⟨e', he', hresponse⟩ | ⟨hnone, -⟩
  · obtain rfl := Option.some.inj (he'.symm.trans he)
    rw [hresponse, hbytes]
  · cases he.symm.trans hnone

/-- On a store that has no file, or has its file to itself and writes every change at once, what was
stored under a key is sent for it until the key is decided again. -/
theorem sent_as_stored (hsettled : Store.Settled x)
    (hclear : ∀ m ∈ exchanges s x requests, m.Clear s)
    (hsplit : exchanges s x requests = past ++ put :: (between ++ get :: later))
    (hput : put.input.Reaches s (some k)) (hstores : put.input.Stores)
    (hstatus : put.status s = 201) (hbetween : ∀ m ∈ between, ¬m.Decides s k)
    (hget : get.input.Addresses s (some k)) (hmethod : get.input.method = "GET") :
    get.response s = .json put.input.body.trim := by
  have hname := name_of_stored hstores hstatus
  obtain ⟨hserved, hsettings, hafter⟩ := serves_exchange hname
    (settled_of_exchanges hsettled hclear hsplit) (hclear put (by simp [hsplit]))
  obtain ⟨k', d, ha, -, hd, hcontents⟩ := hserved.of_created hstatus
  obtain rfl := Option.some.inj (reaches_unique ha.reaches hput)
  obtain ⟨rest, hrest⟩ := exists_trace_of_split hsplit
  have hclear' : ∀ m ∈ exchanges s (serve s put.state put.input) rest, m.Clear s := by
    intro m hm
    rw [exchanges, ← hrest] at hm
    exact hclear m (by rw [hsplit]; exact List.mem_append_right _ (List.mem_cons_of_mem _ hm))
  rw [← Document.bytes_of_ofBytes hd]
  refine sent_until_decided (hsettings ▸ hname) hafter hclear' hrest.symm ?_ hbetween hget hmethod
  rw [show (serve s put.state put.input).1.contents = _ from hcontents, hsettings,
    Contents.document?_put]

end Stored

/-! ## Keys survive -/

/-- What holds of a key and the requests whose paths spell it. -/
structure Survives (s : HttpSettings) (k : String) : Prop where
  /-- Where the base has no parameters, any spelling in the last segment of a target counts. -/
  spelled : IsLiteral s.basePath → ∀ (request : Request) (segments : List Bytes) (w tail : Bytes),
    (∀ p ∈ segments, Bytes.IsUtf8 (percentDecode p)) → Spells (Bytes.ofString k) w →
    (∀ b ∈ normalBase s.basePath ++ closedSegments segments, b ≠ 0x3F ∧ b ≠ 0x23) →
    (∀ b, tail.head? = some b → b = 0x3F ∨ b = 0x23) →
    request.target = normalBase s.basePath ++ slash :: (closedSegments segments ++ w) ++ tail →
    request.Spells s k
  whole : '/' ∉ k.toList → ∀ request : Request, request.Spells s k → request.IsAbout s (some k)
  last : ∀ before piece, k = before ++ "/" ++ piece → '/' ∉ piece.toList →
    ∀ request : Request, request.Spells s k →
      request.IsAbout s (if piece = "" then none else some piece)
  same : ∀ request request' : Request, request.Spells s k → request'.Spells s k →
    request'.method = request.method → request'.query = request.query →
    request'.body = request.body → plan s request' = plan s request
  sent : '/' ∉ k.toList → ∀ x requests, Store.Settled x →
    (∀ m ∈ exchanges s x requests, m.Clear s) → ∀ past put between get later,
    exchanges s x requests = past ++ put :: (between ++ get :: later) →
    put.input.Spells s k → put.input.Stores → put.status s = 201 →
    (∀ m ∈ between, ¬m.Decides s k) →
    get.input.Spells s k → get.input.method = "GET" →
    (∃ params, ListParams.ofQuery get.input.query = .ok params) →
    get.input.body.length ≤ bodyLimit →
    get.response s = .json put.input.body.trim

theorem spelled_of_target {s : HttpSettings} {k : String} (hk : k ≠ "")
    (hbase : IsLiteral s.basePath) {request : Request} {segments : List Bytes} {w tail : Bytes}
    (hsegments : ∀ p ∈ segments, Bytes.IsUtf8 (percentDecode p))
    (hw : Spells (Bytes.ofString k) w)
    (hmark : ∀ b ∈ normalBase s.basePath ++ closedSegments segments, b ≠ 0x3F ∧ b ≠ 0x23)
    (htail : ∀ b, tail.head? = some b → b = 0x3F ∨ b = 0x23)
    (htarget : request.target =
      normalBase s.basePath ++ slash :: (closedSegments segments ++ w) ++ tail) :
    request.Spells s k := by
  have hne : closedSegments segments ++ w ≠ [] := by
    have hbytes : Bytes.ofString k ≠ [] := fun h => hk (Bytes.ofString_injective h)
    simp [hw.ne_nil hbytes]
  have hhead : (normalBase s.basePath ++ slash :: (closedSegments segments ++ w)).head? =
      some slash := by
    rw [normalBase]
    split <;> rfl
  have hplain : ∀ b ∈ normalBase s.basePath ++ slash :: (closedSegments segments ++ w),
      b ≠ 0x3F ∧ b ≠ 0x23 := by
    rw [List.forall_mem_append] at hmark ⊢
    refine ⟨hmark.1, List.forall_mem_cons.2 ⟨by decide, ?_⟩⟩
    exact List.forall_mem_append.2 ⟨hmark.2, hw.no_mark⟩
  have hpath : request.path = normalBase s.basePath ++ slash :: (closedSegments segments ++ w) := by
    rw [Request.path, htarget, path_ofBytes hhead hplain htail]
  exact ⟨segments, w, hsegments, hw, goesOn_of_literal hbase hne hpath⟩

theorem spelled_keys_survive (s : HttpSettings) {k : String} (hk : k ≠ "") : Survives s k where
  spelled hbase request segments w tail hsegments hw hmark htail htarget :=
    spelled_of_target hk hbase hsegments hw hmark htail htarget
  whole hslash request h := h.isAbout_key hk hslash
  last before piece heq hpiece request h := h.isAbout ⟨hpiece, .inr ⟨before, heq⟩⟩
  same request request' h h' hmethod hquery hbody := by
    have hpiece := lastPiece_lastSegment k
    exact (h.isAbout hpiece).plan_congr (h'.isAbout hpiece) hmethod hquery hbody
  sent hslash x requests hsettled hclear past put between get later hsplit hput hstores hstatus
      hbetween hget hmethod hquery hbody := by
    have hreaches := (hget.isAbout_key hk hslash).reaches
    exact sent_as_stored hsettled hclear hsplit (hput.isAbout_key hk hslash).reaches hstores
      hstatus hbetween ⟨hreaches, hquery, hbody⟩ hmethod

/-! ### A key in two spellings -/

def storingEscaped : Request := ⟨"PUT", Bytes.ofString "/a/%6b?page=2", Bytes.ofString " 1\n"⟩

theorem spells_k : Spells (Bytes.ofString "k") (Bytes.ofString "k") :=
  .cons (.plain (by decide)) .nil

theorem spells_k_escaped : Spells (Bytes.ofString "k") (Bytes.ofString "%6b") :=
  .cons (@Octet.escape 0x6B 0x36 0x62 6 11 rfl rfl rfl) .nil

theorem two_spellings_of_k :
    "k" ≠ "" ∧ storingEscaped.Spells .initial "k" ∧ asking.Spells .initial "k" ∧
      ∃ put get : Exchange,
        exchanges .initial (.inMemory, .fresh) [storingEscaped, asking] = [put, get] ∧
        put.input = storingEscaped ∧ get.input = asking ∧
        get.response .initial = .json (Bytes.ofString "1") := by
  have hk : "k" ≠ "" := by decide
  have hsurvives := spelled_keys_survive .initial hk
  have hput : storingEscaped.Spells .initial "k" := by
    refine hsurvives.spelled (by decide) storingEscaped [Bytes.ofString "a"]
      (Bytes.ofString "%6b") (Bytes.ofString "?page=2") ?_ spells_k_escaped ?_ ?_ (by cbv)
    · exact List.forall_mem_singleton.2 ⟨"a", by cbv⟩
    · have hfront : normalBase HttpSettings.initial.basePath ++
          closedSegments [Bytes.ofString "a"] = [0x61, slash] := by cbv
      rw [hfront]
      simp only [List.forall_mem_cons]
      exact ⟨by decide, by decide, List.forall_mem_nil _⟩
    · rintro b ⟨⟩
      exact .inl rfl
  have hget : asking.Spells .initial "k" :=
    hsurvives.spelled (by decide) asking [] (Bytes.ofString "k") [] (List.forall_mem_nil _)
      spells_k (List.forall_mem_nil _) (by simp) (by cbv)
  have hclear : ∀ m ∈ exchanges .initial (.inMemory, .fresh) [storingEscaped, asking],
      m.Clear .initial := clear_of_all_isOk (by cbv)
  obtain ⟨put, get, hall, hinput, hstatus, hinput'⟩ :
      ∃ put get : Exchange,
        exchanges .initial (.inMemory, .fresh) [storingEscaped, asking] = [put, get] ∧
        put.input = storingEscaped ∧ put.status .initial = 201 ∧ get.input = asking :=
    ⟨_, _, rfl, rfl, by cbv, rfl⟩
  have hsettled := Store.settled_of_openWith Store.openWith_inMemory (.inl rfl)
  have hsent := hsurvives.sent (by decide) _ _ hsettled hclear [] put [] get [] hall
    (hinput ▸ hput) (by rw [hinput]; exact .inr rfl) hstatus (List.forall_mem_nil _)
    (hinput' ▸ hget) (by rw [hinput']; rfl) ⟨⟨none, none⟩, by rw [hinput']; cbv⟩
    (by rw [hinput']; decide)
  refine ⟨hk, hput, hget, put, get, hall, hinput, hinput', hsent.trans ?_⟩
  rw [hinput]
  cbv

end JsonCabinet.Http
