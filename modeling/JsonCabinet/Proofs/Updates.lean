import JsonCabinet.Proofs.Copies

/-!
# Updates of stores that share a file

A store that writes replaces the whole file by what it has itself, which undoes the updates that it
does not know of, and a read keeps what the file no longer holds. So what was stored can be lost,
and what was removed can be found again. As long as only stores write that know of an update
(`Informed`), the file carries it (`Carried`). What one operation does to the copies under one key
is kept along a history as what the copies recall of all the turns so far (`Recalls`).
-/

namespace JsonCabinet

open Files

/-! ## Turns -/

namespace Site

/-- The change that was made and written in this turn, if there was one. -/
def Turn.made? (turn : Turn) : Option Change :=
  match turn.event, turn.answer with
  | .act number op, some r => match turn.after.stores[number]? with
    | some s => s.settings.made? op r
    | none => none
  | _, _ => none

/-- The store wrote the file in this turn. -/
def Turn.WrittenBy (number : Nat) (turn : Turn) : Prop :=
  turn.written?.isSome = true ∧ ∃ op, turn.event = .act number op

/-- The store was opened in this turn. -/
def Turn.Opens (number : Nat) (turn : Turn) : Prop :=
  (∃ settings, turn.event = .opening settings) ∧ turn.answer = some (.ok .done) ∧
    number = turn.before.stores.length

/-- The store has read the file in this turn: it was asked for a document under names that are not
refused. -/
def Turn.ReadBy (number : Nat) (turn : Turn) : Prop :=
  ∃ c k r, turn.event = .act number (.get c k) ∧ turn.answer = some r ∧
    ∀ why, r ≠ .error (.validation why)

/-- The read finds no document: the collection has none under the key, or is not there either. -/
def Turn.FindsNothing (number : Nat) (collection : String) (turn : Turn) : Prop :=
  ∃ s, turn.after.stores[number]? = some s ∧
    turn.answer = some (if s.contents.contains collection then .ok (.document none)
      else .error (.collectionNotFound collection))

theorem Turn.FindsNothing.ne {number : Nat} {c : String} {turn : Turn}
    {r : Except StoreError Answer} (h : turn.FindsNothing number c) (hr : turn.answer = some r)
    (d : Document) : r ≠ .ok (.document (some d)) := by
  rintro rfl
  obtain ⟨s, -, hanswer⟩ := h
  rw [hr] at hanswer
  split at hanswer
  · cases hanswer
  · cases hanswer

/-- A store that is opened writes its changes at once. -/
def Event.WritesThrough : Event → Prop
  | .opening settings => settings.flush = .auto
  | .act .. => True

/-- Stores that write every change at once share the file at this path, which is missing or empty
at first, and no call to the file system fails. -/
structure Undisturbed (fs : FileSystem) (p : Path) (events : List Event) : Prop where
  empty : ∀ b, fs.node? (fs.place p) = some (.file b) → b = []
  shares : ∀ event ∈ events, event.Shares fs p
  auto : ∀ event ∈ events, event.WritesThrough
  clear : ∀ turn ∈ history ⟨fs, []⟩ events, turn.Clear

/-- After these turns the store knows of an update that left this under the key: it made it, or it
had the same already; or it was opened since then; or it has read the file since then, if there is
a document to be read. -/
inductive Informed (c k : String) (v? : Option Document) (update : Turn) (since : List Turn)
    (number : Nat) : Prop
  | made (h : update.WrittenBy number)
  | agreed (s : Store) (hs : update.after.stores[number]? = some s)
    (h : s.contents.document? c k = v?)
  | opened (turn : Turn) (hturn : turn ∈ since) (h : turn.Opens number)
  | read (turn : Turn) (hturn : turn ∈ since) (hv : v?.isSome = true) (h : turn.ReadBy number)

/-- The change was made in the first turn, none has concerned the key since then, and whoever has
written the file since then knew of it. -/
structure Carried (c k : String) (z : Change) (update : Turn) (since : List Turn) : Prop where
  made : update.made? = some z
  concerns : z.Concerns c k
  last : ∀ turn ∈ since, ∀ z', turn.made? = some z' → ¬z'.Concerns c k
  informed : ∀ seen writer later i, since = seen ++ writer :: later → writer.WrittenBy i →
    Informed c k z.outcome update seen i

/-! ### What a turn can do -/

variable {p : Path} {x y : Copies} {turn : Turn}

/-- What becomes of the copies in a turn, with all that is told of it. -/
inductive Turn.Steps (x : Copies) (turn : Turn) : Copies → Prop
  | opened (settings : Settings) (hevent : turn.event = .opening settings)
    (hnumber : turn.before.stores.length = x.stores.length) (hmade : turn.made? = none) :
    turn.Steps x ⟨x.file, x.stores ++ [⟨settings, x.file⟩]⟩
  | acted (number : Nat) (op : Operation) (s : Store) (hevent : turn.event = .act number op)
    (hs : x.stores[number]? = some s) (hanswer : turn.answer = some (x.act number s op).1)
    (hmade : turn.made? = s.settings.made? op (x.act number s op).1)
    (hwritten : turn.written?.isSome = op.writes s.settings.flush (x.act number s op).1) :
    turn.Steps x (x.act number s op).2
  | idle (hmade : turn.made? = none) (hopens : ∀ i, ¬turn.Opens i)
    (hacts : ∀ number op, turn.event = .act number op → turn.answer = none) : turn.Steps x x

theorem Turn.ByRules.steps (hr : turn.ByRules p x) (hb : Shows p x turn.before) :
    turn.Steps x (x.respond turn.event).2 := by
  obtain ⟨hanswer, hafter, -⟩ := hr
  cases hevent : turn.event with
  | opening settings =>
    rw [hevent] at hanswer
    have hmade : turn.made? = none := by simp only [Turn.made?, hevent]
    cases hvalid : settings.validate with
    | error f =>
      simp only [Copies.respond, hvalid] at hanswer ⊢
      refine .idle hmade (fun i hi => ?_) fun _ _ h => ?_
      · obtain ⟨-, h, -⟩ := hi
        rw [hanswer] at h
        cases h
      · rw [hevent] at h
        cases h
    | ok =>
      simp only [Copies.respond, hvalid]
      exact .opened settings hevent (by rw [hb.stores_eq]) hmade
  | act number op =>
    rw [hevent] at hanswer hafter
    cases hs : x.stores[number]? with
    | none =>
      simp only [Copies.respond, hs] at hanswer ⊢
      refine .idle (by simp only [Turn.made?, hevent, hanswer]) (fun i hi => ?_)
        fun _ _ _ => hanswer
      obtain ⟨-, h, -⟩ := hi
      rw [hanswer] at h
      cases h
    | some s =>
      simp only [Copies.respond, hs] at hanswer hafter ⊢
      have hlt := (List.getElem?_eq_some_iff.1 hs).1
      have hs' : turn.after.stores[number]? =
          some ⟨s.settings, (s.settings.effect (s.knowing x.file op) op).contents⟩ := by
        rw [← hafter.stores_eq]
        simp only [Copies.act, List.getElem?_set_self hlt]
      refine .acted number op s hevent hs hanswer ?_ ?_
      · simp only [Turn.made?, hevent, hanswer, hs']
      · simp only [Turn.written?, hevent, hanswer, hs']
        split
        · next hw => rw [hw]; rfl
        · next hw => simpa using hw

/-- A read that is not refused takes over the file. -/
theorem knowing_of_read {s : Store} {t : Contents} {name key : String}
    (h : ∀ why, (s.settings.effect (s.knowing t (.get name key)) (.get name key)).answer ≠
      .error (.validation why)) : s.knowing t (.get name key) = s.contents.merge t := by
  have hr : ¬(Operation.get name key).Refused s.settings := by
    intro hr
    obtain ⟨why, he⟩ := Settings.effect_of_refused hr (s.knowing t (.get name key))
    exact h why (by rw [he])
  simp only [Store.knowing, Settings.address_of_not_refused hr]

end Site

namespace Copies.Agree

open Site

variable {x y : Copies} {turn : Turn} {c k : String} {v? : Option Document} {who who' : Nat → Prop}

theorem mono (h : x.Agree c k v? who) (hwho : ∀ i, who' i → who i) : x.Agree c k v? who' :=
  ⟨h.file, fun i s hi => h.stores i s (hwho i hi)⟩

/-- While only those who know of an update write, and nothing else is changed under the key, those
who know of it go on to agree, and so does who is opened or reads it. -/
theorem after (hstep : turn.Steps x y) (h : x.Agree c k v? who)
    (hother : ∀ z, turn.made? = some z → ¬z.Concerns c k)
    (hwriters : ∀ i, turn.WrittenBy i → who i) :
    y.Agree c k v? fun i => who i ∨ turn.Opens i ∨ v?.isSome ∧ turn.ReadBy i := by
  cases hstep with
  | opened settings hevent hnumber hmade =>
    refine (h.append settings).mono fun i hi => ?_
    rcases hi with hi | ⟨-, -, hi⟩ | ⟨-, _, _, _, hget, -⟩
    · exact .inl hi
    · exact .inr (hi.trans hnumber)
    · rw [hevent] at hget
      cases hget
  | acted number op s hevent hs hanswer hmade hwritten =>
    have hw : op.writes s.settings.flush (x.act number s op).1 = true → who number :=
      fun hw => hwriters number ⟨hwritten.trans hw, op, hevent⟩
    refine (h.act hs (hmade ▸ hother) hw).mono fun i hi => ?_
    rcases hi with hi | ⟨⟨_, hopen⟩, -⟩ | ⟨hv, name, key, r, hget, hr, hnot⟩
    · exact .inl hi
    · rw [hevent] at hopen
      cases hopen
    · rw [hevent] at hget
      cases hget
      rw [hanswer] at hr
      cases hr
      exact .inr ⟨rfl, hv, knowing_of_read hnot⟩
  | idle hmade hopens hacts =>
    refine h.mono fun i hi => ?_
    rcases hi with hi | hi | ⟨-, _, _, r, hget, hr, -⟩
    · exact hi
    · exact absurd hi (hopens i)
    · rw [hacts _ _ hget] at hr
      cases hr

end Copies.Agree

namespace Site

variable {p : Path} {x y : Copies} {turn update : Turn} {since past : List Turn} {c k : String}
  {z : Change} {d : Document} {v? : Option Document}

/-- A document that is found after a turn was found before it, or was stored in it. -/
theorem Turn.Steps.finds (hstep : turn.Steps x y) (h : y.Finds c k d) :
    x.Finds c k d ∨ turn.made? = some (.stored c k d) := by
  cases hstep with
  | opened settings => exact .inl (Copies.finds_append h)
  | acted number op s _ hs _ hmade =>
    rw [hmade]
    exact Copies.finds_act (List.mem_of_getElem? hs) h
  | idle => exact .inl h

theorem Turn.Steps.auto (hstep : turn.Steps x y) (hevent : turn.event.WritesThrough)
    (h : ∀ s ∈ x.stores, s.settings.flush = .auto) : ∀ s ∈ y.stores, s.settings.flush = .auto := by
  cases hstep with
  | opened settings ho =>
    rw [ho] at hevent
    intro s hs
    rcases List.mem_append.1 hs with hs | hs
    · exact h s hs
    · obtain rfl := List.mem_singleton.1 hs
      exact hevent
  | acted number op s ho hs =>
    intro s' hs'
    rcases List.mem_or_eq_of_mem_set hs' with hold | rfl
    · exact h s' hold
    · exact h s (List.mem_of_getElem? hs)
  | idle => exact h

/-- Who made an update has in memory what it left. -/
theorem Turn.Steps.agree (hstep : turn.Steps x y) (hafter : y.stores = turn.after.stores)
    (hauto : ∀ s ∈ x.stores, s.settings.flush = .auto) (hz : turn.made? = some z)
    (hc : z.Concerns c k) : y.Agree c k z.outcome (Informed c k z.outcome turn []) := by
  cases hstep with
  | opened settings hevent hnumber hmade =>
    rw [hmade] at hz
    cases hz
  | acted number op s hevent hs hanswer hmade hwritten =>
    rw [hmade] at hz
    have hw : op.writes s.settings.flush (x.act number s op).1 = true := by
      rw [hauto s (List.mem_of_getElem? hs)]
      unfold Settings.made? at hz
      split at hz
      · next hw => exact hw
      · cases hz
    refine (Copies.agree_of_change hz hc hw).mono fun i hi s' hs' => ?_
    cases hi with
    | made h =>
      obtain ⟨-, op', hop⟩ := h
      rw [hevent] at hop
      cases hop
      have hlt := (List.getElem?_eq_some_iff.1 hs).1
      simp only [Copies.act, List.getElem?_set_self hlt, Option.some.injEq] at hs'
      subst hs'
      rw [document?_effect_of_made hz, if_pos hc]
    | agreed s'' hs'' h =>
      rw [hafter, hs''] at hs'
      cases hs'
      exact h
    | opened _ hturn => cases hturn
    | read _ hturn => cases hturn
  | idle hmade =>
    rw [hmade] at hz
    cases hz

theorem Informed.of_concat {i : Nat} (h : Informed c k v? update (since ++ [turn]) i) :
    Informed c k v? update since i ∨ turn.Opens i ∨ v?.isSome ∧ turn.ReadBy i := by
  cases h with
  | made h => exact .inl (.made h)
  | agreed s hs h => exact .inl (.agreed s hs h)
  | opened other hother h =>
    rcases List.mem_append.1 hother with hold | hnew
    · exact .inl (.opened other hold h)
    · exact .inr (.inl (List.mem_singleton.1 hnew ▸ h))
  | read other hother hv h =>
    rcases List.mem_append.1 hother with hold | hnew
    · exact .inl (.read other hold hv h)
    · exact .inr (.inr ⟨hv, List.mem_singleton.1 hnew ▸ h⟩)

theorem carried_nil :
    Carried c k z update [] ↔ update.made? = some z ∧ z.Concerns c k := by
  refine ⟨fun h => ⟨h.made, h.concerns⟩, fun ⟨hmade, hc⟩ => ⟨hmade, hc, ?_, ?_⟩⟩
  · intro turn h
    cases h
  · intro seen writer later i h
    simp at h

theorem carried_concat :
    Carried c k z update (since ++ [turn]) ↔ Carried c k z update since ∧
      (∀ z', turn.made? = some z' → ¬z'.Concerns c k) ∧
      ∀ i, turn.WrittenBy i → Informed c k z.outcome update since i := by
  constructor
  · rintro ⟨hmade, hconcerns, hlast, hinformed⟩
    refine ⟨⟨hmade, hconcerns, fun other hother => hlast other (by simp [hother]), ?_⟩,
      hlast turn (by simp), fun i => hinformed since turn [] i rfl⟩
    intro seen writer later i hsince
    exact hinformed seen writer (later ++ [turn]) i (by simp [hsince])
  · rintro ⟨⟨hmade, hconcerns, hlast, hinformed⟩, hother, hwriters⟩
    refine ⟨hmade, hconcerns, fun other h => ?_, fun seen writer later i h => ?_⟩
    · rcases List.mem_append.1 h with h | h
      · exact hlast other h
      · exact List.mem_singleton.1 h ▸ hother
    · rcases of_concat_eq h with ⟨-, rfl, rfl⟩ | ⟨later, -, rfl⟩
      · exact hwriters i
      · exact hinformed seen writer later i rfl

/-! ### What is kept along a history -/

/-- What the copies recall of the turns so far, if every store writes its changes at once. -/
structure Recalls (past : List Turn) (x : Copies) : Prop where
  auto : ∀ s ∈ x.stores, s.settings.flush = .auto
  stored : ∀ c k d, x.Finds c k d → ∃ turn ∈ past, turn.made? = some (.stored c k d)
  agree : ∀ c k z earlier update since, past = earlier ++ update :: since →
    Carried c k z update since → x.Agree c k z.outcome (Informed c k z.outcome update since)

theorem recalls_nothing : Recalls [] ⟨.empty, []⟩ where
  auto _ h := nomatch h
  stored c k d h := by
    rcases h with h | ⟨s, hs, -⟩
    · cases h
    · cases hs
  agree c k z earlier update since h := by simp at h

theorem Recalls.concat (h : Recalls past x) (hstep : turn.Steps x y)
    (hafter : y.stores = turn.after.stores) (hevent : turn.event.WritesThrough) :
    Recalls (past ++ [turn]) y where
  auto := hstep.auto hevent h.auto
  stored c k d hd := by
    rcases hstep.finds hd with hd | hd
    · obtain ⟨other, hother, hstored⟩ := h.stored c k d hd
      exact ⟨other, by simp [hother], hstored⟩
    · exact ⟨turn, by simp, hd⟩
  agree c k z earlier update since hpast hcarried := by
    rcases of_concat_eq hpast with ⟨rfl, -, rfl⟩ | ⟨since, rfl, rfl⟩
    · exact hstep.agree hafter h.auto hcarried.made hcarried.concerns
    · obtain ⟨hbefore, hother, hinformed⟩ := carried_concat.1 hcarried
      exact ((h.agree c k z earlier update since rfl hbefore).after hstep hother
        hinformed).mono fun i hi => hi.of_concat

/-- Before each turn of a history the copies recall the turns so far, and the turn goes by the
rules. -/
theorem recalls_of_history {fs : FileSystem} {events : List Event} {later : List Turn}
    (h : Undisturbed fs p events) (hsplit : history ⟨fs, []⟩ events = past ++ turn :: later) :
    ∃ x, Recalls past x ∧ Shows p x turn.before ∧ turn.ByRules p x := by
  have hkept : ∃ x, Recalls past x ∧ Shows p x turn.before ∧ fs.Keeps turn.before.files := by
    refine invariant_of_history (P := Turn.Clear)
      (I := fun past site => ∃ x, Recalls past x ∧ Shows p x site ∧ fs.Keeps site.files)
      (fun past site event hevent hclear hsite => ?_) h.clear
      ⟨_, recalls_nothing, shows_of_empty h.empty, .refl fs⟩ hsplit
    obtain ⟨x, hrecalls, hshows, hk⟩ := hsite
    have hrules := hshows.turn ((h.shares event hevent).keeps hk) hclear
    exact ⟨_, hrecalls.concat (hrules.steps hshows) hrules.after.stores_eq (h.auto event hevent),
      hrules.after, hk.trans hrules.keeps⟩
  obtain ⟨x, hrecalls, hshows, hk⟩ := hkept
  have hturn : turn ∈ history ⟨fs, []⟩ events := by simp [hsplit]
  have hrules := hshows.turn ((h.shares _ (event_mem_of_history hturn)).keeps hk)
    (eq_turn_of_history hturn ▸ h.clear turn hturn)
  exact ⟨x, hrecalls, hshows, eq_turn_of_history hturn ▸ hrules⟩

/-! ## Reads -/

/-- A read is answered from the memory of the store and the file, where the file comes first. -/
theorem Turn.Steps.answer_of_get {number : Nat} {r : Except StoreError Answer}
    (hstep : turn.Steps x y) (hafter : y.stores = turn.after.stores)
    (hget : turn.event = .act number (.get c k)) (hr : turn.answer = some r) (hc : c ≠ "")
    (hk : k ≠ "") :
    ∃ s, x.stores[number]? = some s ∧
      (∀ d, (s.contents.merge x.file).document? c k = some d → r = .ok (.document (some d))) ∧
      ((s.contents.merge x.file).document? c k = none → turn.FindsNothing number c) := by
  cases hstep with
  | opened settings hevent =>
    rw [hevent] at hget
    cases hget
  | acted i op s hevent hs hanswer =>
    rw [hevent] at hget
    cases hget
    have ha : s.settings.address c k = .ok (c, k) := Store.address_of_ne hc hk
    have hknown : s.knowing x.file (.get c k) = s.contents.merge x.file := by
      simp only [Store.knowing, ha]
    have heffect := effect_get ha (s.contents.merge x.file)
    have hlt := (List.getElem?_eq_some_iff.1 hs).1
    have hs' : turn.after.stores[number]? = some ⟨s.settings, s.contents.merge x.file⟩ := by
      rw [← hafter]
      simp only [Copies.act, hknown, heffect, List.getElem?_set_self hlt]
    have hr' : r = if (s.contents.merge x.file).contains c
        then .ok (.document ((s.contents.merge x.file).document? c k))
        else .error (.collectionNotFound c) := by
      rw [hanswer] at hr
      simp only [Copies.act, hknown, heffect] at hr
      exact (Option.some.inj hr).symm
    refine ⟨s, hs, fun d hd => ?_, fun hnone => ⟨_, hs', ?_⟩⟩
    · rw [hr', if_pos (Contents.contains_of_document? hd), hd]
    · rw [hr, hr', hnone]
  | idle hmade hopens hacts =>
    rw [hacts _ _ hget] at hr
    cases hr

theorem undisturbed_inDatabase {events : List Event}
    (hopened : ∀ settings, .opening settings ∈ events → settings = Store.inDatabase)
    (hall : (history ⟨Store.withDatabase, []⟩ events).all
      (fun turn => turn.answer.all Except.isOk) = true) :
    Undisturbed Store.withDatabase Store.database events where
  empty _ hb := Store.eq_nil_of_node?_withDatabase hb
  shares event hevent := by
    cases event with
    | opening settings =>
      obtain rfl := hopened settings hevent
      exact ⟨Store.database, rfl, rfl⟩
    | act number op => trivial
  auto event hevent := by
    cases event with
    | opening settings =>
      obtain rfl := hopened settings hevent
      rfl
    | act number op => trivial
  clear := clear_of_all_isOk hall

/-- Stores that write every change at once and share a file, missing or empty at first, in whatever
order they are opened and act. A read finds a document that some store has stored under these names
before, or it finds nothing. If those that have written the file since an update was made knew of
it, then a read of any store finds what was stored; and if the update was a removal, a read finds
nothing, provided that its own store knows of the removal as well. -/
theorem informed_writers_lose_no_update {fs : FileSystem} {events : List Event}
    (h : Undisturbed fs p events) {later : List Turn}
    (hsplit : history ⟨fs, []⟩ events = past ++ turn :: later) {number : Nat}
    {r : Except StoreError Answer} (hget : turn.event = .act number (.get c k))
    (hr : turn.answer = some r) (hc : c ≠ "") (hk : k ≠ "") :
    ((∃ d, r = .ok (.document (some d)) ∧ ∃ t ∈ past, t.made? = some (.stored c k d)) ∨
      turn.FindsNothing number c) ∧
    ∀ z earlier update since, past = earlier ++ update :: since → Carried c k z update since →
      (∀ d, z.outcome = some d → r = .ok (.document (some d))) ∧
      (z.outcome = none → Informed c k none update since number → turn.FindsNothing number c) := by
  obtain ⟨x, hrecalls, hshows, hrules⟩ := recalls_of_history h hsplit
  obtain ⟨s, hs, hfound, hnothing⟩ :=
    (hrules.steps hshows).answer_of_get hrules.after.stores_eq hget hr hc hk
  refine ⟨?_, fun z earlier update since hpast hcarried => ?_⟩
  · cases hd : (s.contents.merge x.file).document? c k with
    | none => exact .inr (hnothing hd)
    | some d =>
      rw [Contents.document?_merge_eq, Option.or_eq_some_iff] at hd
      have hfinds : x.Finds c k d :=
        hd.imp_right fun hd => ⟨s, List.mem_of_getElem? hs, hd.2⟩
      exact .inl ⟨d, hfound d (by rwa [Contents.document?_merge_eq, Option.or_eq_some_iff]),
        hrecalls.stored c k d hfinds⟩
  · have hagree := hrecalls.agree c k z earlier update since hpast hcarried
    refine ⟨fun d hd => hfound d (Contents.document?_merge (hagree.file.trans hd)),
      fun hnone hi => hnothing ?_⟩
    rw [hnone] at hagree
    rw [Contents.document?_merge_eq, hagree.file, hagree.stores number s hi hs, Option.or_self]

/-- The second store reads the document of the first one before it writes one of its own. -/
def informing : List Event :=
  [.opening Store.inDatabase, .opening Store.inDatabase, .act 0 (.set "c" "k" Store.one),
    .act 1 (.get "c" "k"), .act 1 (.set "c" "other" Store.one), .act 0 (.get "c" "k")]

theorem informed_writer_keeps_update :
    ∃ past turn, history ⟨Store.withDatabase, []⟩ informing = past ++ [turn] ∧
      turn.answer = some (.ok (.document (some Store.one))) := by
  have h : Undisturbed Store.withDatabase Store.database informing :=
    undisturbed_inDatabase (by simp [informing]) (by cbv)
  obtain ⟨first, second, update, reading, writing, turn, hturns⟩ :
      ∃ first second update reading writing turn,
        history ⟨Store.withDatabase, []⟩ informing =
          [first, second, update, reading, writing, turn] :=
    ⟨_, _, _, _, _, _, rfl⟩
  have hevent : (history ⟨Store.withDatabase, []⟩ informing).map Turn.event = informing := rfl
  have htold : (history ⟨Store.withDatabase, []⟩ informing).map
      (fun turn => (turn.made?, turn.answer.map Except.isOk, turn.written?.isSome)) =
        [(none, some true, false), (none, some true, false),
          (some (.stored "c" "k" Store.one), some true, true), (none, some true, false),
          (some (.stored "c" "other" Store.one), some true, true), (none, some true, false)] := by
    cbv
  rw [hturns] at hevent htold
  simp only [informing, List.map, List.cons.injEq, Prod.mk.injEq, Option.map_eq_some_iff]
    at hevent htold
  obtain ⟨-, -, -, hread, hwrite, hget, -⟩ := hevent
  obtain ⟨-, -, ⟨hupdate, -⟩, ⟨hunmade, ⟨r', hr', hok⟩, hunwritten⟩, ⟨hmade, -⟩,
    ⟨-, ⟨r, hr, -⟩, -⟩, -⟩ := htold
  have hreading : reading.ReadBy 1 := by
    refine ⟨"c", "k", r', hread, hr', fun why hwhy => ?_⟩
    rw [hwhy] at hok
    cases hok
  have hstored : Carried "c" "k" (.stored "c" "k" Store.one) update [] :=
    carried_nil.2 ⟨hupdate, rfl, rfl⟩
  have hseen : Carried "c" "k" (.stored "c" "k" Store.one) update [reading] := by
    refine carried_concat.2 ⟨hstored, fun z hz => ?_, fun i hw => ?_⟩
    · rw [hunmade] at hz
      cases hz
    · exact absurd hw.1 (by simp [hunwritten])
  have hcarried : Carried "c" "k" (.stored "c" "k" Store.one) update [reading, writing] := by
    refine carried_concat.2 ⟨hseen, fun z hz => ?_, fun i hw => ?_⟩
    · rw [hmade] at hz
      cases hz
      simp [Change.Concerns]
    · obtain ⟨-, op, hop⟩ := hw
      rw [hwrite] at hop
      cases hop
      exact .read reading (by simp) rfl hreading
  have hkept := (informed_writers_lose_no_update h hturns hget hr (by decide) (by decide)).2 _
    [first, second] update _ rfl hcarried
  exact ⟨[first, second, update, reading, writing], turn, hturns, by rw [hr, hkept.1 _ rfl]⟩

/-! ## Updates that are lost -/

/-- Each read shows what the last of the updates before it has left. -/
def ShowUpdates (turns : List Turn) : Prop :=
  ∀ past turn later number c k r, turns = past ++ turn :: later →
    turn.event = .act number (.get c k) → turn.answer = some r → c ≠ "" → k ≠ "" →
    (∀ d, Change.Holds (past.filterMap Turn.made?) c k d → r = .ok (.document (some d))) ∧
      ((∀ d, ¬Change.Holds (past.filterMap Turn.made?) c k d) → turn.FindsNothing number c)

/-- The second store writes a document of its own, without having read that of the first one. -/
def overwriting : List Event :=
  [.opening Store.inDatabase, .opening Store.inDatabase, .act 0 (.set "c" "k" Store.one),
    .act 1 (.set "c" "other" Store.one), .act 1 (.get "c" "k")]

/-- The second store has read a document that the first one removes afterwards. -/
def outliving : List Event :=
  [.opening Store.inDatabase, .opening Store.inDatabase, .act 0 (.set "c" "k" Store.one),
    .act 1 (.get "c" "k"), .act 0 (.delete "c" "k"), .act 1 (.get "c" "k")]

theorem not_showUpdates_overwriting :
    ¬ShowUpdates (history ⟨Store.withDatabase, []⟩ overwriting) := by
  intro h
  have hshown := (h [_, _, _, _] _ [] 1 "c" "k" (.ok (.document none)) rfl rfl (by cbv)
    (by decide) (by decide)).1 Store.one
  have hmade : ((history ⟨Store.withDatabase, []⟩ overwriting).take 4).filterMap Turn.made? =
      [.stored "c" "k" Store.one, .stored "c" "other" Store.one] := by cbv
  have hholds : Change.Holds [.stored "c" "k" Store.one, .stored "c" "other" Store.one] "c" "k"
      Store.one := ⟨[], _, _, rfl, rfl, by simp [Change.Concerns]⟩
  cases hshown (hmade ▸ hholds)

theorem not_showUpdates_outliving :
    ¬ShowUpdates (history ⟨Store.withDatabase, []⟩ outliving) := by
  intro h
  have hshown := (h [_, _, _, _, _] _ [] 1 "c" "k" (.ok (.document (some Store.one))) rfl rfl
    (by cbv) (by decide) (by decide)).2
  have hmade : ((history ⟨Store.withDatabase, []⟩ outliving).take 5).filterMap Turn.made? =
      [.stored "c" "k" Store.one] ++ [.removed "c" "k"] := by cbv
  have hnone : ∀ d,
      ¬Change.Holds ([.stored "c" "k" Store.one] ++ [.removed "c" "k"]) "c" "k" d := by
    intro d hd
    rcases Change.holds_concat.1 hd with hlast | ⟨hlast, -⟩
    · cases hlast
    · exact hlast ⟨rfl, rfl⟩
  exact (hshown (hmade ▸ hnone)).ne (r := .ok (.document (some Store.one))) (by cbv) _ rfl

/-- What stores that share a file have stored may be lost, and what they have removed may come
back: neither has to do with failures. -/
theorem updates_can_be_lost :
    (Undisturbed Store.withDatabase Store.database overwriting ∧
      ¬ShowUpdates (history ⟨Store.withDatabase, []⟩ overwriting)) ∧
    (Undisturbed Store.withDatabase Store.database outliving ∧
      ¬ShowUpdates (history ⟨Store.withDatabase, []⟩ outliving)) := by
  refine ⟨⟨?_, not_showUpdates_overwriting⟩, ?_, not_showUpdates_outliving⟩
  · exact undisturbed_inDatabase (by simp [overwriting]) (by cbv)
  · exact undisturbed_inDatabase (by simp [outliving]) (by cbv)

end Site

end JsonCabinet
