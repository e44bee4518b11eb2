import JsonCabinet.Proofs.Steps
import JsonCabinet.Site

/-!
# Stores that share a file

Any number of stores with one file act in turns, each on contents of its own that may be out of
date. What every turn keeps holds at each turn of a history (`invariant_of_history`). So, whatever
the order, the file decodes, and holds the snapshot of the store that wrote last
(`contentOf_of_history`); a read shows what the file holds and takes it all over (`ReadsFile`), so a
read behind a change that was written at once shows the change (`follows_of_turns`).
-/

namespace JsonCabinet

open Files

namespace Site

/-! ## Histories -/

inductive Event
  | opening (settings : Settings)
  | act (number : Nat) (op : Operation)
  deriving DecidableEq

/-- An event with the site before and after it. A store that is not there gives no answer. -/
structure Turn where
  before : Site
  event : Event
  answer : Option (Except StoreError Answer)
  after : Site

def respond (site : Site) : Event → Option (Except StoreError Answer) × Site
  | .opening settings =>
    let (opened, after) := site.openStore settings
    (some (opened.map fun _ => .done), after)
  | .act number op => site.perform number op

def turn (site : Site) (event : Event) : Turn :=
  ⟨site, event, (site.respond event).1, (site.respond event).2⟩

def history (site : Site) : List Event → List Turn
  | [] => []
  | event :: events => site.turn event :: (site.turn event).after.history events

/-- The snapshot that was written, of the store as it is after it has acted. -/
def Turn.written? (turn : Turn) : Option Bytes :=
  match turn.event, turn.answer with
  | .act number op, some r => match turn.after.stores[number]? with
    | some s => if op.writes s.settings.flush r then some s.snapshot else none
    | none => none
  | _, _ => none

/-- No call to the file system failed in this turn. -/
def Turn.Clear (turn : Turn) : Prop := ∀ r, turn.answer = some r → NoFileError r

/-- A store that is opened has the file at this path, which it may spell differently. -/
def Event.Shares (fs : FileSystem) (p : Path) : Event → Prop
  | .opening settings => ∃ q, settings.backing = .file q ∧ fs.place q = fs.place p
  | .act .. => True

/-! ## What stays -/

/-- The store has the file at this path. -/
def Has (fs : FileSystem) (p : Path) (s : Store) : Prop :=
  ∃ q, s.settings.backing = .file q ∧ fs.place q = fs.place p ∧ fs.NamesFile q

/-- The file decodes, and every store has it. -/
structure Shared (p : Path) (site : Site) : Prop where
  decodes : ∃ t, Snapshot.load site.files p = .ok t
  stores : ∀ s ∈ site.stores, Has site.files p s

variable {p : Path} {site : Site} {fs fs' : FileSystem} {s s' : Store}

theorem Has.keeps (h : Has fs p s) (hk : fs.Keeps fs')
    (hsettings : s'.settings = s.settings) : Has fs' p s' := by
  obtain ⟨q, hq, hplace, hnames⟩ := h
  exact ⟨q, hsettings ▸ hq, by rw [hk.place_eq, hk.place_eq, hplace], hk.namesFile hnames⟩

/-- Every spelling of the path shows the same content. -/
theorem contentOf_eq_of_place {q : Path} {content : Bytes} (hc : fs.contentOf p = .ok content)
    (hplace : fs.place q = fs.place p) (hnames : fs.NamesFile q) :
    fs.contentOf q = .ok content :=
  FileSystem.contentOf_eq_ok_iff.2
    ⟨hnames, hplace ▸ (FileSystem.contentOf_eq_ok_iff.1 hc).2⟩

theorem Shared.content (h : Shared p site) : ∃ b, site.files.contentOf p = .ok b := by
  obtain ⟨t, ht⟩ := h.decodes
  obtain ⟨b, hb, -⟩ := Snapshot.load_eq_ok_iff.1 ht
  exact ⟨b, hb⟩

/-- A turn after which the file decodes still, and which has changed it only by writing it. -/
structure Turn.Orderly (p : Path) (turn : Turn) : Prop where
  before : Shared p turn.before
  after : Shared p turn.after
  keeps : turn.before.files.Keeps turn.after.files
  written : ∀ b, turn.written? = some b → turn.after.files.contentOf p = .ok b
  unwritten : turn.written? = none →
    turn.after.files.contentOf p = turn.before.files.contentOf p

theorem Shared.of_grows {stores : List Store} (h : Shared p site) (hg : site.files.Grows fs)
    (hstores : ∀ s ∈ stores, Has fs p s) : Shared p ⟨fs, stores⟩ := by
  obtain ⟨t, ht⟩ := h.decodes
  obtain ⟨b, hb, hdec⟩ := Snapshot.load_eq_ok_iff.1 ht
  exact ⟨⟨t, Snapshot.load_eq_ok_iff.2 ⟨b, hg.contentOf_eq hb, hdec⟩⟩, hstores⟩

/-- Opening one more store leaves the content of the file as it is. -/
theorem Shared.opening {settings : Settings} (h : Shared p site)
    (hshares : (Event.opening settings).Shares site.files p) :
    (site.turn (.opening settings)).Orderly p := by
  obtain ⟨q, hq, hplace⟩ := hshares
  obtain ⟨b, hb⟩ := h.content
  have hg := Store.grows_openWith settings site.files
  have hold : ∀ s ∈ site.stores, Has (Store.openWith settings site.files).2 p s :=
    fun s hs => (h.stores s hs).keeps hg.keeps rfl
  have hafter : Shared p (site.openStore settings).2 ∧
      (site.openStore settings).2.files = (Store.openWith settings site.files).2 := by
    unfold openStore
    cases ho : Store.openWith settings site.files with
    | mk opened fs' =>
      rw [ho] at hg hold
      cases opened with
      | error e => exact ⟨h.of_grows hg hold, rfl⟩
      | ok s =>
        refine ⟨h.of_grows hg fun s' hs' => ?_, rfl⟩
        rcases List.mem_append.1 hs' with hs' | hs'
        · exact hold s' hs'
        · obtain rfl := List.mem_singleton.1 hs'
          obtain ⟨hsettings, hl⟩ := Store.openWith_eq_ok hq ho
          obtain ⟨b', hb', -⟩ := Snapshot.load_eq_ok_iff.1 hl
          refine ⟨q, hsettings ▸ hq, ?_, (FileSystem.contentOf_eq_ok_iff.1 hb').1⟩
          rw [hg.keeps.place_eq, hg.keeps.place_eq, hplace]
  refine ⟨h, hafter.1, ?_, fun _ hw => (nomatch hw), fun _ => ?_⟩
  · show site.files.Keeps (site.openStore settings).2.files
    rw [hafter.2]
    exact hg.keeps
  · show (site.openStore settings).2.files.contentOf p = site.files.contentOf p
    rw [hafter.2, hg.contentOf_eq hb, hb]

section Acts

variable {number : Nat} {op : Operation}

theorem turn_of_none (hs : site.stores[number]? = none) :
    site.turn (.act number op) = ⟨site, .act number op, none, site⟩ := by
  simp only [turn, respond, perform, hs]

theorem turn_of_some (hs : site.stores[number]? = some s) :
    site.turn (.act number op) = ⟨site, .act number op, some (s.perform site.files op).result,
      ⟨(s.perform site.files op).files,
        site.stores.set number (s.perform site.files op).store⟩⟩ := by
  simp only [turn, respond, perform, hs, settle]

theorem getElem?_set_perform (hs : site.stores[number]? = some s) (s' : Store) :
    (site.stores.set number s')[number]? = some s' := by
  obtain ⟨hlt, -⟩ := List.getElem?_eq_some_iff.1 hs
  rw [List.getElem?_set_self hlt]

theorem written?_of_some (op : Operation) (hs : site.stores[number]? = some s) :
    (site.turn (.act number op)).written? =
      if op.writes (s.perform site.files op).store.settings.flush
          (s.perform site.files op).result
        then some (s.perform site.files op).store.snapshot else none := by
  rw [turn_of_some hs]
  simp only [Turn.written?, getElem?_set_perform hs]

/-- What an operation of one of the stores can do. -/
theorem Shared.moves (h : Shared p site) (hs : site.stores[number]? = some s)
    (hclear : (site.turn (.act number op)).Clear) :
    ∃ q, s.settings.backing = .file q ∧ site.files.place q = site.files.place p ∧
      (∀ b, site.files.contentOf p = .ok b → site.files.contentOf q = .ok b) ∧
      Store.Moves q s site.files op (s.perform site.files op) := by
  obtain ⟨q, hq, hplace, hnames⟩ := h.stores s (List.mem_of_getElem? hs)
  have hanswer : NoFileError (s.perform site.files op).result :=
    hclear _ (by rw [turn_of_some hs])
  exact ⟨q, hq, hplace, fun b hb => contentOf_eq_of_place hb hplace hnames,
    Store.perform_moves hq hanswer⟩

theorem Shared.settle {t : Contents} (h : Shared p site) (hs : site.stores[number]? = some s)
    (hsettings : s'.settings = s.settings) (hk : site.files.Keeps fs)
    (ht : Snapshot.load fs p = .ok t) : Shared p (site.settle number s' fs) := by
  refine ⟨⟨t, ht⟩, fun other hother => ?_⟩
  rcases List.mem_or_eq_of_mem_set hother with hold | rfl
  · exact (h.stores other hold).keeps hk rfl
  · exact (h.stores s (List.mem_of_getElem? hs)).keeps hk hsettings

/-- A store that acts changes the file only by writing its snapshot to it. -/
theorem Shared.act (h : Shared p site) (hclear : (site.turn (.act number op)).Clear) :
    (site.turn (.act number op)).Orderly p := by
  cases hs : site.stores[number]? with
  | none =>
    rw [turn_of_none hs]
    exact ⟨h, h, .refl _, fun _ hw => (nomatch hw), fun _ => rfl⟩
  | some s =>
    obtain ⟨q, -, hplace, hcontent, hmoves⟩ := h.moves hs hclear
    obtain ⟨t, ht⟩ := h.decodes
    obtain ⟨b, hb, -⟩ := Snapshot.load_eq_ok_iff.1 ht
    have hwritten := written?_of_some op hs
    rw [hmoves.settings_eq] at hwritten
    cases hw : op.writes s.settings.flush (s.perform site.files op).result with
    | true =>
      have hr := hmoves.rewrites hw
      have hk := hr.keeps (FileSystem.contentOf_eq_ok_iff.1 (hcontent b hb)).2
      have hnow : (s.perform site.files op).files.contentOf p =
          .ok (s.perform site.files op).store.snapshot :=
        FileSystem.contentOf_of_keeps hk hb (hplace ▸ hr.here)
      have hafter := h.settle hs hmoves.settings_eq hk (Snapshot.load_of_content hnow)
      rw [hw] at hwritten
      rw [turn_of_some hs] at hwritten ⊢
      refine ⟨h, hafter, hk, fun b' hb' => ?_, fun hnone => ?_⟩
      · rw [hwritten] at hb'
        cases hb'
        exact hnow
      · rw [hwritten] at hnone
        cases hnone
    | false =>
      have hfiles := hmoves.unwritten hw
      have hk : site.files.Keeps (s.perform site.files op).files := by
        rw [hfiles]
        exact .refl _
      have hafter := h.settle hs hmoves.settings_eq hk (hfiles ▸ ht)
      rw [hw] at hwritten
      rw [turn_of_some hs] at hwritten ⊢
      refine ⟨h, hafter, hk, fun b' hb' => ?_, fun _ => ?_⟩
      · rw [hwritten] at hb'
        cases hb'
      · exact congrArg (FileSystem.contentOf · p) hfiles

end Acts

/-! ## Whole histories -/

theorem Shared.turn {event : Event} (h : Shared p site) (hshares : event.Shares site.files p)
    (hclear : (site.turn event).Clear) : (site.turn event).Orderly p := by
  cases event with
  | opening settings => exact h.opening hshares
  | act number op => exact h.act hclear

theorem Event.Shares.keeps {event : Event} (h : event.Shares fs p) (hk : fs.Keeps fs') :
    event.Shares fs' p := by
  cases event with
  | opening settings =>
    obtain ⟨q, hq, hplace⟩ := h
    exact ⟨q, hq, by rw [hk.place_eq, hk.place_eq, hplace]⟩
  | act number op => trivial

section Histories

variable {events : List Event} {turn : Turn}

theorem eq_turn_of_history (h : turn ∈ site.history events) :
    turn = turn.before.turn turn.event := by
  induction events generalizing site with
  | nil => cases h
  | cons event events ih =>
    rcases List.mem_cons.1 h with rfl | h
    · rfl
    · exact ih h

theorem event_mem_of_history (h : turn ∈ site.history events) : turn.event ∈ events := by
  induction events generalizing site with
  | nil => cases h
  | cons event events ih =>
    rcases List.mem_cons.1 h with rfl | h
    · exact List.mem_cons_self
    · exact List.mem_cons_of_mem _ (ih h)

/-- What every turn keeps holds before each turn of a history, of the turns so far. -/
theorem invariant_of_history {P : Turn → Prop} {I : List Turn → Site → Prop}
    (hstep : ∀ past site event, event ∈ events → P (site.turn event) → I past site →
      I (past ++ [site.turn event]) (site.turn event).after)
    (hok : ∀ turn ∈ site.history events, P turn) {past later : List Turn} (h : I [] site)
    (hsplit : site.history events = past ++ turn :: later) : I past turn.before := by
  induction events generalizing site past I with
  | nil => simp [history] at hsplit
  | cons event events ih =>
    obtain ⟨hfirst, hrest⟩ := List.forall_mem_cons.1 hok
    cases past with
    | nil =>
      obtain ⟨rfl, -⟩ := List.cons.inj hsplit
      exact h
    | cons first past =>
      obtain ⟨rfl, htail⟩ := List.cons.inj hsplit
      -- What holds of the turns so far is put as what holds of those behind the first.
      exact ih (I := fun past => I (site.turn event :: past))
        (fun past next e he => hstep (_ :: past) next e (List.mem_cons_of_mem _ he)) hrest
        (hstep [] site event List.mem_cons_self hfirst h) htail

/-- What every turn keeps, whatever came before, holds before and after each turn. -/
theorem invariant_at_turns {I : Site → Prop}
    (hstep : ∀ site event, event ∈ events → (site.turn event).Clear → I site →
      I (site.turn event).after)
    (hclear : ∀ turn ∈ site.history events, turn.Clear) (h : I site)
    (hturn : turn ∈ site.history events) : I turn.before ∧ I turn.after := by
  obtain ⟨past, later, hsplit⟩ := List.append_of_mem hturn
  have hbefore : I turn.before :=
    invariant_of_history (P := Turn.Clear) (I := fun _ => I) (fun _ => hstep) hclear h hsplit
  have heq := eq_turn_of_history hturn
  have hafter := hstep turn.before turn.event (event_mem_of_history hturn)
    (heq ▸ hclear turn hturn) hbefore
  rw [← heq] at hafter
  exact ⟨hbefore, hafter⟩

/-- Every turn of a history is orderly. -/
theorem orderly_of_history (h : Shared p site)
    (hshares : ∀ event ∈ events, event.Shares site.files p)
    (hclear : ∀ turn ∈ site.history events, turn.Clear) :
    ∀ turn ∈ site.history events, turn.Orderly p := by
  intro turn hturn
  have hkept : Shared p turn.before ∧ site.files.Keeps turn.before.files := by
    refine (invariant_at_turns (I := fun next => Shared p next ∧ site.files.Keeps next.files)
      (fun next event hevent hclear hnext => ?_) hclear ⟨h, .refl _⟩ hturn).1
    have ho := hnext.1.turn ((hshares event hevent).keeps hnext.2) hclear
    exact ⟨ho.after, hnext.2.trans ho.keeps⟩
  have hevent := hshares turn.event (event_mem_of_history hturn)
  have heq := eq_turn_of_history hturn
  have ho := hkept.1.turn (hevent.keeps hkept.2) (heq ▸ hclear turn hturn)
  rwa [← heq] at ho

/-- A turn begins where the one before it has ended. -/
theorem before_eq_after_of_history {first second : Turn} {earlier later : List Turn}
    (h : site.history events = earlier ++ first :: second :: later) :
    second.before = first.after := by
  induction events generalizing site earlier with
  | nil => simp [history] at h
  | cons event events ih =>
    cases earlier with
    | nil =>
      obtain ⟨hfirst, htail⟩ := List.cons.inj h
      cases events with
      | nil => cases htail
      | cons event' events =>
        obtain ⟨hsecond, -⟩ := List.cons.inj htail
        rw [← hfirst, ← hsecond]
        rfl
    | cons turn earlier => exact ih (List.cons.inj h).2

/-- The snapshot that was written last in these turns. -/
def lastWritten? (turns : List Turn) : Option Bytes := (turns.filterMap Turn.written?).getLast?

theorem getD_lastWritten?_concat (turns : List Turn) (turn : Turn) (b : Bytes) :
    (lastWritten? (turns ++ [turn])).getD b =
      turn.written?.getD ((lastWritten? turns).getD b) := by
  unfold lastWritten?
  rw [List.filterMap_append]
  cases hw : turn.written? with
  | none => simp [hw]
  | some b' => simp [hw]

theorem Turn.Orderly.contentOf_after {b : Bytes} (h : turn.Orderly p)
    (hb : turn.before.files.contentOf p = .ok b) :
    turn.after.files.contentOf p = .ok (turn.written?.getD b) := by
  cases hw : turn.written? with
  | none => exact (h.unwritten hw).trans hb
  | some b' => exact h.written b' hw

/-- After each turn the file holds the snapshot that was written last. -/
theorem contentOf_of_history {earlier later : List Turn} {b : Bytes}
    (hb : site.files.contentOf p = .ok b)
    (horderly : ∀ turn ∈ site.history events, turn.Orderly p)
    (h : site.history events = earlier ++ turn :: later) :
    turn.after.files.contentOf p = .ok ((lastWritten? (earlier ++ [turn])).getD b) := by
  have hbefore : turn.before.files.contentOf p = .ok ((lastWritten? earlier).getD b) := by
    refine invariant_of_history (P := fun turn => turn.Orderly p)
      (I := fun past next => next.files.contentOf p = .ok ((lastWritten? past).getD b))
      (fun past next event _ ho hnext => ?_) horderly hb h
    rw [getD_lastWritten?_concat]
    exact ho.contentOf_after hnext
  rw [getD_lastWritten?_concat]
  exact (horderly turn (by simp [h])).contentOf_after hbefore

end Histories

/-! ## Reads -/

/-- A read of names that are not empty shows what the file holds for them, and all that the file
holds is in the memory of the store then. -/
def Turn.ReadsFile (p : Path) (turn : Turn) : Prop :=
  ∀ number collection key r t, turn.event = .act number (.get collection key) →
    turn.answer = some r → collection ≠ "" → key ≠ "" →
    Snapshot.load turn.before.files p = .ok t →
    (∀ d, t.document? collection key = some d → r = .ok (.document (some d))) ∧
      ∃ s, turn.after.stores[number]? = some s ∧
        ∀ c k d, t.document? c k = some d → s.contents.document? c k = some d

theorem readsFile_turn {event : Event} (h : Shared p site) (hclear : (site.turn event).Clear) :
    (site.turn event).ReadsFile p := by
  intro number collection key r t hevent hr hc hk ht
  obtain rfl : event = .act number (.get collection key) := hevent
  cases hs : site.stores[number]? with
  | none =>
    rw [turn_of_none hs] at hr
    cases hr
  | some s =>
    obtain ⟨q, hq, -, hcontent, -⟩ := h.moves hs hclear
    obtain ⟨b, hb, hdec⟩ := Snapshot.load_eq_ok_iff.1 ht
    have hload : Snapshot.load site.files q = .ok t :=
      Snapshot.load_eq_ok_iff.2 ⟨b, hcontent b hb, hdec⟩
    obtain ⟨hcontents, hresult⟩ := Store.perform_get_of_load hq hc hk hload
    rw [turn_of_some hs] at hr ⊢
    obtain rfl := Option.some.inj hr
    refine ⟨fun d hd => hresult d (Contents.document?_merge hd), _,
      getElem?_set_perform hs _, fun c k d hd => ?_⟩
    rw [hcontents]
    exact Contents.document?_merge hd

/-- A read directly behind a change that was written at once shows the change, whichever stores
made and read it. -/
def Follows (first second : Turn) : Prop :=
  ∀ writer reader s collection key d answer r,
    first.event = .act writer (.set collection key d) → first.before.stores[writer]? = some s →
    s.settings.flush = .auto → first.answer = some (.ok answer) → collection ≠ "" →
    second.event = .act reader (.get collection key) → second.answer = some r →
    r = .ok (.document (some d))

theorem follows_of_turns {first second : Turn} {event : Event} (h : Shared p site)
    (hfirst : first = site.turn event) (hclear : first.Clear)
    (hbefore : second.before = first.after) (hreads : second.ReadsFile p) :
    Follows first second := by
  intro writer reader s collection key d answer r hevent hs hauto hanswer hc hget hr
  subst hfirst
  obtain rfl : event = .act writer (.set collection key d) := hevent
  have hs : site.stores[writer]? = some s := hs
  have ho := h.act hclear
  have hmoves := h.moves hs hclear
  rw [turn_of_some hs] at hanswer
  have hok := Option.some.inj hanswer
  obtain ⟨hk, hd⟩ := Store.document?_perform_set hc hok
  have hw : (site.turn (.act writer (.set collection key d))).written? =
      some (s.perform site.files (.set collection key d)).store.snapshot := by
    obtain ⟨q, -, -, -, hmoves⟩ := hmoves
    rw [written?_of_some _ hs, hmoves.settings_eq, hok, hauto]
    rfl
  have hload := Snapshot.load_of_content (ho.written _ hw)
  exact (hreads reader collection key r _ hget hr hc hk (hbefore ▸ hload)).1 d hd

/-- Stores that share a file which decodes, in whatever order they are opened and act: after each
turn the file decodes and holds the snapshot of the store that wrote last, as that store was then;
nothing but a write changes it; a read shows what the file holds and takes it over; and a read
directly behind a change that was written at once shows the change. -/
theorem shared_file_holds_last_snapshot {b : Bytes} {t : Contents} {events : List Event}
    (hb : fs.contentOf p = .ok b) (ht : Snapshot.decode b = .ok t)
    (hshares : ∀ event ∈ events, event.Shares fs p)
    (hclear : ∀ turn ∈ history ⟨fs, []⟩ events, turn.Clear) :
    (∀ turn ∈ history ⟨fs, []⟩ events,
      (∃ t, Snapshot.load turn.after.files p = .ok t) ∧
      (turn.written? = none →
        turn.after.files.contentOf p = turn.before.files.contentOf p) ∧
      turn.ReadsFile p) ∧
    (∀ earlier turn later, history ⟨fs, []⟩ events = earlier ++ turn :: later →
      turn.after.files.contentOf p = .ok ((lastWritten? (earlier ++ [turn])).getD b)) ∧
    (∀ earlier first second later,
      history ⟨fs, []⟩ events = earlier ++ first :: second :: later → Follows first second) := by
  have hshared : Shared p ⟨fs, []⟩ :=
    ⟨⟨t, Snapshot.load_eq_ok_iff.2 ⟨b, hb, ht⟩⟩, fun _ h => nomatch h⟩
  have horderly := orderly_of_history hshared hshares hclear
  have hreads : ∀ turn ∈ history ⟨fs, []⟩ events, turn.ReadsFile p := by
    intro turn hturn
    have hclear' := hclear turn hturn
    rw [eq_turn_of_history hturn] at hclear' ⊢
    exact readsFile_turn (horderly turn hturn).before hclear'
  refine ⟨fun turn hturn => ?_, fun earlier turn later h => ?_,
    fun earlier first second later h => ?_⟩
  · exact ⟨(horderly turn hturn).after.decodes, (horderly turn hturn).unwritten,
      hreads turn hturn⟩
  · exact contentOf_of_history hb horderly h
  · have hfirst : first ∈ history ⟨fs, []⟩ events := by simp [h]
    have hsecond : second ∈ history ⟨fs, []⟩ events := by simp [h]
    exact follows_of_turns (horderly first hfirst).before (eq_turn_of_history hfirst)
      (hclear first hfirst) (before_eq_after_of_history h) (hreads second hsecond)

/-- Where every answer is one without an error, no call to the file system failed. -/
theorem clear_of_all_isOk {turns : List Turn}
    (h : turns.all (fun turn => turn.answer.all Except.isOk) = true) :
    ∀ turn ∈ turns, turn.Clear := by
  intro turn hturn r hr
  have hok := List.all_eq_true.1 h turn hturn
  rw [hr] at hok
  exact noFileError_of_isOk hok

/-- Two stores of different policies and formats; one stores a document, and the other reads it. -/
def twoStores : List Event :=
  [.opening Store.inDatabase,
    .opening { Store.inDatabase with flush := .manual, format := .compact },
    .act 0 (.set "c" "k" Store.one), .act 1 (.get "c" "k")]

theorem two_stores_hold_last_snapshot :
    (∀ turn ∈ history ⟨Store.withDatabase, []⟩ twoStores, turn.ReadsFile Store.database) ∧
    (∀ earlier turn later,
      history ⟨Store.withDatabase, []⟩ twoStores = earlier ++ turn :: later →
      turn.after.files.contentOf Store.database =
        .ok ((lastWritten? (earlier ++ [turn])).getD [])) := by
  have hb : Store.withDatabase.contentOf Store.database = .ok [] := by cbv
  have hshares : ∀ event ∈ twoStores, event.Shares Store.withDatabase Store.database := by
    intro event hevent
    simp only [twoStores, List.mem_cons, List.not_mem_nil, or_false] at hevent
    rcases hevent with rfl | rfl | rfl | rfl
    · exact ⟨Store.database, rfl, rfl⟩
    · exact ⟨Store.database, rfl, rfl⟩
    · trivial
    · trivial
  have hclear : ∀ turn ∈ history ⟨Store.withDatabase, []⟩ twoStores, turn.Clear :=
    clear_of_all_isOk (by cbv)
  obtain ⟨hturns, hlast, -⟩ := shared_file_holds_last_snapshot hb rfl hshares hclear
  exact ⟨fun turn hturn => (hturns turn hturn).2.2, hlast⟩

end Site

end JsonCabinet
