import JsonCabinet.Proofs.Copies

/-!
# Traces of a store

A run as the list of its moments, each with the state that its input meets, so that what a run does
can be told from any moment of it and those before. What every step keeps holds at each moment
(`invariant_of_trace`). A store that nobody shares a file with is known by its contents and by those
of its file, if it has one, and what it does by these alone (`Alone.perform`).
-/

namespace JsonCabinet

open Files

/-! ## Moments -/

/-- An input, with the state that it meets. -/
structure Moment (σ ε : Type) where
  state : σ
  input : ε

section Traces

variable {σ ε : Type} {step : σ → ε → σ} {x : σ} {inputs : List ε}

/-- The moments of a run, in order. -/
def trace (step : σ → ε → σ) (x : σ) : List ε → List (Moment σ ε)
  | [] => []
  | input :: inputs => ⟨x, input⟩ :: trace step (step x input) inputs

/-- What every step keeps holds at each moment, of the moments so far. -/
theorem invariant_of_trace {P : Moment σ ε → Prop} {I : List (Moment σ ε) → σ → Prop}
    (hstep : ∀ past x input, P ⟨x, input⟩ → I past x → I (past ++ [⟨x, input⟩]) (step x input))
    (hok : ∀ m ∈ trace step x inputs, P m) {past later : List (Moment σ ε)} {m : Moment σ ε}
    (h : I [] x) (hsplit : trace step x inputs = past ++ m :: later) : I past m.state := by
  induction inputs generalizing x past I with
  | nil => simp [trace] at hsplit
  | cons input inputs ih =>
    obtain ⟨hfirst, hrest⟩ := List.forall_mem_cons.1 hok
    cases past with
    | nil =>
      obtain ⟨rfl, -⟩ := List.cons.inj hsplit
      exact h
    | cons first past =>
      obtain ⟨rfl, htail⟩ := List.cons.inj hsplit
      -- What holds of the moments so far is put as what holds of those behind the first.
      exact ih (I := fun past => I (⟨x, input⟩ :: past)) (fun past => hstep (_ :: past)) hrest
        (hstep [] x input hfirst h) htail

/-- What follows a moment is the trace of the run that goes on from it. -/
theorem exists_trace_of_split {seen later : List (Moment σ ε)} {m : Moment σ ε}
    (hsplit : trace step x inputs = seen ++ m :: later) :
    ∃ rest, later = trace step (step m.state m.input) rest := by
  induction inputs generalizing x seen with
  | nil => simp [trace] at hsplit
  | cons input inputs ih =>
    cases seen with
    | nil =>
      obtain ⟨rfl, rfl⟩ := List.cons.inj hsplit
      exact ⟨inputs, rfl⟩
    | cons first seen => exact ih (List.cons.inj hsplit).2

end Traces

/-! ## Acts of a store -/

/-- An operation, with the store and the files that it meets. -/
abbrev Act := Moment (Store × FileSystem) Operation

namespace Moment

def settings (m : Act) : Settings := m.state.1.settings

def outcome (m : Act) : Outcome Answer := m.state.1.perform m.state.2 m.input

theorem settings_outcome (m : Act) : m.outcome.store.settings = m.settings :=
  Store.perform_settings m.state.1 m.state.2 m.input

/-- The change that was made. -/
def made? (m : Act) : Option Change := m.settings.made? m.input m.outcome.result

/-- The change that was made decides what is found under the key. -/
def Changes (c k : String) (m : Act) : Prop := ∃ x, m.made? = some x ∧ x.Concerns c k

/-- No call to the file system failed. -/
def Clear (m : Act) : Prop := NoFileError m.outcome.result

end Moment

/-- The operation takes over the file: it is a read, and its names are not refused. -/
def Operation.TakesOver (s : Settings) : Operation → Prop
  | .get c k => ¬(Operation.get c k).Refused s
  | _ => False

namespace Store

/-- The store and the files after an operation. -/
def next (x : Store × FileSystem) (op : Operation) : Store × FileSystem :=
  ((x.1.perform x.2 op).store, (x.1.perform x.2 op).files)

/-- The acts of a run. -/
def acts (s : Store) (fs : FileSystem) (ops : List Operation) : List Act := trace next (s, fs) ops

/-! ### A store that has its file to itself -/

variable {s s' : Store} {fs fs' : FileSystem} {p : Path} {t : Contents} {file? : Option Contents}
  {op : Operation}

/-- The store is in memory and has no file, or it has one that holds these contents. -/
inductive Alone : Option Contents → Store → FileSystem → Prop
  | memory {s : Store} {fs : FileSystem} (hb : s.settings.backing = .memory) : Alone none s fs
  | file {s : Store} {fs : FileSystem} {t : Contents} (p : Path)
    (hb : s.settings.backing = .file p) (hl : Snapshot.load fs p = .ok t) : Alone (some t) s fs

/-- What the store has in memory when the operation has its effect. -/
def aware (s : Store) (file? : Option Contents) (op : Operation) : Contents :=
  match file? with
  | none => s.contents
  | some t => s.knowing t op

/-- What the operation means for the store. -/
def effectOn (s : Store) (file? : Option Contents) (op : Operation) : Effect :=
  s.settings.effect (s.aware file? op) op

/-- What the file holds after the operation: it is written if a snapshot is due. -/
def fileAfter (s : Store) (file? : Option Contents) (op : Operation) : Option Contents :=
  file?.map fun t => if op.writes s.settings.flush (s.effectOn file? op).answer
    then (s.effectOn file? op).contents else t

theorem load_perform (hp : s.settings.backing = .file p) (hl : Snapshot.load fs p = .ok t)
    (hclear : NoFileError (s.perform fs op).result) :
    Snapshot.load (s.perform fs op).files p =
      .ok (if op.writes s.settings.flush (s.perform fs op).result
        then (s.perform fs op).store.contents else t) := by
  have hmoves := perform_moves hp hclear
  obtain ⟨b, hb, -⟩ := Snapshot.load_eq_ok_iff.1 hl
  cases hw : op.writes s.settings.flush (s.perform fs op).result with
  | true =>
    rw [if_pos rfl]
    exact Snapshot.load_of_content (hmoves.contentOf_eq hb hw)
  | false => rw [if_neg Bool.false_ne_true, hmoves.unwritten hw, hl]

/-- As long as nothing fails in the file system, the contents of the store and of its file tell what
an operation answers, and what it makes of them. -/
theorem Alone.perform (h : Alone file? s fs) (hclear : NoFileError (s.perform fs op).result) :
    (s.perform fs op).result = (s.effectOn file? op).answer ∧
      (s.perform fs op).store = ⟨s.settings, (s.effectOn file? op).contents⟩ ∧
      Alone (s.fileAfter file? op) (s.perform fs op).store (s.perform fs op).files := by
  cases h with
  | memory hb =>
    rw [perform_memory hb]
    exact ⟨rfl, rfl, .memory hb⟩
  | file p hb hl =>
    obtain ⟨hresult, hstore⟩ := perform_of_load hb hl hclear
    have hload := load_perform hb hl hclear
    rw [hresult, hstore] at hload
    exact ⟨hresult, hstore, .file p (hstore ▸ hb) hload⟩

theorem alone_of_openWith {settings : Settings} (h : openWith settings fs = (.ok s, fs')) :
    s.settings = settings ∧ ∃ file?, Alone file? s fs' ∧ ∀ t ∈ file?, t = s.contents := by
  cases hb : settings.backing with
  | memory =>
    unfold openWith at h
    split at h
    · cases h
    · rw [hb] at h
      cases h
      exact ⟨rfl, none, .memory hb, fun _ ht => nomatch ht⟩
  | file p =>
    obtain ⟨hsettings, hl⟩ := openWith_eq_ok hb h
    refine ⟨hsettings, some s.contents, .file p (hsettings ▸ hb) hl, fun t ht => ?_⟩
    exact (Option.mem_some.1 ht).symm

/-- What every act keeps of the store and of its file holds at each act of a run. -/
theorem invariant_of_acts {J : List Act → Option Contents → Store → Prop}
    (hstep : ∀ past (m : Act) file?, m.Clear → Alone file? m.state.1 m.state.2 →
      J past file? m.state.1 →
      J (past ++ [m]) (m.state.1.fileAfter file? m.input) m.outcome.store)
    {ops : List Operation} (hclear : ∀ m ∈ s.acts fs ops, m.Clear) {past later : List Act}
    {m : Act} (ha : Alone file? s fs) (h : J [] file? s)
    (hsplit : s.acts fs ops = past ++ m :: later) :
    ∃ file?, Alone file? m.state.1 m.state.2 ∧ J past file? m.state.1 := by
  refine invariant_of_trace (P := Moment.Clear)
    (I := fun past x => ∃ file?, Alone file? x.1 x.2 ∧ J past file? x.1)
    (fun past x op hok hx => ?_) hclear ⟨file?, ha, h⟩ hsplit
  obtain ⟨file?, ha, h⟩ := hx
  exact ⟨_, (ha.perform hok).2.2, hstep past ⟨x, op⟩ file? hok ha h⟩

/-! ### A file that is up to date -/

/-- The file, if there is one, holds just what is in memory. -/
def Current (file? : Option Contents) (s : Store) : Prop := ∀ t ∈ file?, t = s.contents

theorem Current.aware_eq (h : Current file? s) (op : Operation) :
    s.aware file? op = s.contents := by
  cases file? with
  | none => rfl
  | some t =>
    obtain rfl := h t rfl
    rcases Copies.knowing_eq s s.contents op with he | he
    · exact he
    · rw [aware, he, Contents.merge_self]

/-- A store that writes every change at once keeps its file up to date. -/
theorem Current.effectOn (h : Current file? s) (hpolicy : file? = none ∨ s.settings.flush = .auto)
    (op : Operation) :
    Current (s.fileAfter file? op) ⟨s.settings, (s.effectOn file? op).contents⟩ := by
  intro t ht
  obtain ⟨u, hu, rfl⟩ := Option.map_eq_some_iff.1 ht
  obtain rfl := h u hu
  have hauto : s.settings.flush = .auto := by
    rcases hpolicy with rfl | hauto
    · cases hu
    · exact hauto
  split
  · rfl
  · next hw =>
    rw [hauto, Bool.not_eq_true] at hw
    rw [Store.effectOn, effect_contents_of_not_writes hw, h.aware_eq]

/-- A store that has no file, or has its file to itself and keeps it up to date. -/
def Settled (x : Store × FileSystem) : Prop :=
  ∃ file?, Alone file? x.1 x.2 ∧ Current file? x.1 ∧ (file? = none ∨ x.1.settings.flush = .auto)

/-- What such a store does is told by its contents. -/
theorem Settled.perform (h : Settled (s, fs)) (hclear : NoFileError (s.perform fs op).result) :
    (s.perform fs op).result = (s.settings.effect s.contents op).answer ∧
      (s.perform fs op).store = ⟨s.settings, (s.settings.effect s.contents op).contents⟩ ∧
      Settled (next (s, fs) op) := by
  obtain ⟨file?, ha, hcurrent, hpolicy⟩ := h
  obtain ⟨hresult, hstore, hafter⟩ := ha.perform hclear
  have hsettled : Settled (next (s, fs) op) := by
    refine ⟨_, hafter, ?_, ?_⟩
    · rw [next, hstore]
      exact hcurrent.effectOn hpolicy op
    · rw [next, hstore, fileAfter, Option.map_eq_none_iff]
      exact hpolicy
  have haware : s.effectOn file? op = s.settings.effect s.contents op := by
    rw [effectOn, hcurrent.aware_eq]
  rw [haware] at hresult hstore
  exact ⟨hresult, hstore, hsettled⟩

theorem settled_of_acts (h : Settled (s, fs)) {ops : List Operation}
    (hclear : ∀ m ∈ s.acts fs ops, m.Clear) :
    Settled (ops.foldl next (s, fs)) ∧ (ops.foldl next (s, fs)).1.settings = s.settings := by
  induction ops generalizing s fs with
  | nil => exact ⟨h, rfl⟩
  | cons op ops ih =>
    obtain ⟨hfirst, hrest⟩ := List.forall_mem_cons.1 hclear
    obtain ⟨hsettled, hsettings⟩ := ih (h.perform hfirst).2.2 hrest
    exact ⟨hsettled, hsettings.trans (perform_settings s fs op)⟩

theorem settled_of_openWith {settings : Settings} (hopen : openWith settings fs = (.ok s, fs'))
    (hpolicy : settings.backing = .memory ∨ settings.flush = .auto) : Settled (s, fs') := by
  obtain ⟨rfl, file?, ha, hcurrent⟩ := alone_of_openWith hopen
  refine ⟨file?, ha, hcurrent, hpolicy.imp_left fun hm => ?_⟩
  cases ha with
  | memory => rfl
  | file p hb => rw [hm] at hb; cases hb

/-- A store that writes every change at once has an up-to-date file at each act of a run. -/
theorem current_of_acts {settings : Settings} (hopen : openWith settings fs = (.ok s, fs'))
    {ops : List Operation} (hclear : ∀ m ∈ s.acts fs' ops, m.Clear) {past later : List Act}
    {m : Act} (hsplit : s.acts fs' ops = past ++ m :: later) :
    ∃ file?, Alone file? m.state.1 m.state.2 ∧ m.state.1.settings = settings ∧
      (settings.flush = .auto → Current file? m.state.1) := by
  obtain ⟨hsettings, file?, hbegin, hcurrent⟩ := alone_of_openWith hopen
  refine invariant_of_acts (J := fun _ file? s => s.settings = settings ∧
    (settings.flush = .auto → Current file? s)) (fun past m file? hclear ha h => ?_) hclear
    hbegin ⟨hsettings, fun _ => hcurrent⟩ hsplit
  obtain ⟨hm, hcurrent⟩ := h
  have hstore := (ha.perform hclear).2.1
  refine ⟨m.settings_outcome.trans hm, fun hauto => ?_⟩
  rw [Moment.outcome, hstore]
  exact (hcurrent hauto).effectOn (.inr (hm ▸ hauto)) m.input

/-! ### What is found under a key -/

theorem knowing_of_takesOver (h : op.TakesOver s.settings) (t : Contents) :
    s.knowing t op = s.contents.merge t := by
  cases op with
  | get name key =>
    have ha := Settings.address_of_not_refused h
    simp only [knowing, ha]
  | _ => exact h.elim

/-- A read that takes over the file finds what the file holds before what is in memory. -/
theorem document?_aware_of_takesOver (h : op.TakesOver s.settings) (file? : Option Contents)
    (c k : String) :
    (s.aware file? op).document? c k =
      (file?.bind (·.document? c k)).or (s.contents.document? c k) := by
  cases file? with
  | none => rfl
  | some t => rw [aware, knowing_of_takesOver h, Contents.document?_merge_eq, Option.bind_some]

/-- Any other operation only knows what is in memory. -/
theorem aware_of_not_takesOver (h : ¬op.TakesOver s.settings) (file? : Option Contents) :
    s.aware file? op = s.contents := by
  cases file? with
  | none => rfl
  | some t =>
    cases op with
    | get name key =>
      obtain ⟨why, ha⟩ := Settings.address_of_refused (not_not.1 h)
      simp only [aware, knowing, ha]
    | _ => rfl

section Acts

variable {m : Act} {c k : String}

/-- What is found under a key that a change concerns is told by the change. -/
theorem Alone.document?_of_made (h : Alone file? m.state.1 m.state.2) (hclear : m.Clear)
    {x : Change} (hx : m.made? = some x) (hc : x.Concerns c k) :
    m.outcome.store.contents.document? c k = x.outcome := by
  obtain ⟨hresult, hstore, -⟩ := h.perform hclear
  rw [Moment.made?, Moment.outcome, hresult] at hx
  rw [Moment.outcome, hstore]
  exact (document?_effect_of_made hx c k).trans (if_pos hc)

/-- What is found under any other key is what the store was aware of. -/
theorem Alone.document?_of_not_changes (h : Alone file? m.state.1 m.state.2) (hclear : m.Clear)
    (hc : ¬m.Changes c k) :
    m.outcome.store.contents.document? c k = (m.state.1.aware file? m.input).document? c k := by
  obtain ⟨hresult, hstore, -⟩ := h.perform hclear
  have hmade : m.made? =
      m.settings.made? m.input (m.state.1.effectOn file? m.input).answer := by
    rw [Moment.made?, Moment.outcome, hresult]
  rw [Moment.outcome, hstore]
  cases hx : m.made? with
  | none =>
    rw [hmade] at hx
    exact congrArg (Contents.document? · c k) (contents_effect_of_not_made hx)
  | some x =>
    have hnot : ¬x.Concerns c k := fun hx' => hc ⟨x, hx, hx'⟩
    rw [hmade] at hx
    exact (document?_effect_of_made hx c k).trans (if_neg hnot)

end Acts

theorem clear_of_all_isOk {l : List Act} (h : l.all (·.outcome.result.isOk) = true) :
    ∀ m ∈ l, m.Clear :=
  fun m hm => noFileError_of_isOk (List.all_eq_true.1 h m hm)

def inManual : Settings := { inDatabase with flush := .manual }

theorem openWith_inManual :
    openWith inManual withDatabase = (.ok ⟨inManual, .empty⟩, withDatabase) := by
  cbv

end Store

end JsonCabinet
