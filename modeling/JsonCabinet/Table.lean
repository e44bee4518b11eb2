import JsonCabinet.Text.Order

/-!
# Tables

A finite map from names to values, kept as its entries in increasing order of names. A table is
determined by what it holds: equal contents are equal tables. Main statements: what is found under
a name after an insertion (`get?_insert`), a removal (`get?_erase`) and a union
(`get?_unionWith`), and that the entries are just what is found (`mem_entries_iff`).
-/

namespace JsonCabinet

open Text

structure Table (α : Type) where
  entries : List (String × α)
  sorted : entries.Pairwise fun a b => precedes a.1 b.1

namespace Table

variable {α : Type}

@[ext]
theorem eq_of_entries {s t : Table α} (h : s.entries = t.entries) : s = t := by
  cases s; cases t; cases h; rfl

instance [DecidableEq α] : DecidableEq (Table α) := fun s t =>
  if h : s.entries = t.entries then isTrue (eq_of_entries h)
  else isFalse fun e => h (e ▸ rfl)

def empty : Table α := ⟨[], .nil⟩

instance : Inhabited (Table α) := ⟨empty⟩

def get? (t : Table α) (name : String) : Option α := t.entries.lookup name

def contains (t : Table α) (name : String) : Bool := (t.get? name).isSome

def names (t : Table α) : List String := t.entries.map (·.1)

def size (t : Table α) : Nat := t.entries.length

/-! ## Entries in order -/

theorem lookup_cons_eq (k : String) (e : String × α) (l : List (String × α)) :
    (e :: l).lookup k = if k = e.1 then some e.2 else l.lookup k := by
  obtain ⟨name, value⟩ := e
  by_cases h : k = name
  · simp only [List.lookup_cons, beq_iff_eq.2 h, if_pos h]
  · simp only [List.lookup_cons, beq_false_of_ne h, if_neg h]

/-- Every name of the list comes after the given one. -/
def Above (name : String) (l : List (String × α)) : Prop := ∀ e ∈ l, precedes name e.1

theorem lookup_eq_none_of_above {name : String} {l : List (String × α)} (h : Above name l) :
    l.lookup name = none := by
  induction l with
  | nil => rfl
  | cons e l ih =>
    have he : name ≠ e.1 := by
      rintro rfl
      exact precedes_irrefl _ (h e (by simp))
    rw [lookup_cons_eq, if_neg he]
    exact ih fun e' he' => h e' (List.mem_cons_of_mem _ he')

theorem above_of_sorted {e : String × α} {l : List (String × α)}
    (h : (e :: l).Pairwise fun a b => precedes a.1 b.1) : Above e.1 l :=
  (List.pairwise_cons.1 h).1

/-! ## Insertion -/

def insertEntry (name : String) (value : α) : List (String × α) → List (String × α)
  | [] => [(name, value)]
  | e :: rest =>
    if precedes name e.1 then (name, value) :: e :: rest
    else if name = e.1 then (name, value) :: rest
    else e :: insertEntry name value rest

theorem above_insertEntry {low name : String} {value : α} {l : List (String × α)}
    (h : Above low l) (hn : precedes low name) : Above low (insertEntry name value l) := by
  induction l with
  | nil => simpa [insertEntry, Above] using hn
  | cons e l ih =>
    have he : precedes low e.1 := h e (by simp)
    have hl : Above low l := fun e' he' => h e' (List.mem_cons_of_mem _ he')
    rw [insertEntry]
    split
    · simpa [Above, hn, he] using hl
    · split
      · simpa [Above, hn] using hl
      · simpa [Above, he] using ih hl

theorem sorted_insertEntry {name : String} {value : α} {l : List (String × α)}
    (h : l.Pairwise fun a b => precedes a.1 b.1) :
    (insertEntry name value l).Pairwise fun a b => precedes a.1 b.1 := by
  induction l with
  | nil => simp [insertEntry]
  | cons e l ih =>
    obtain ⟨he, hl⟩ := List.pairwise_cons.1 h
    rw [insertEntry]
    split
    · next hlt =>
      refine List.pairwise_cons.2 ⟨fun e' he' => ?_, h⟩
      rcases List.mem_cons.1 he' with rfl | he'
      · exact hlt
      · exact precedes_trans hlt (he e' he')
    · split
      · next heq => exact List.pairwise_cons.2 ⟨fun e' he' => heq ▸ he e' he', hl⟩
      · next hlt hne =>
        exact List.pairwise_cons.2 ⟨above_insertEntry he (precedes_of_not hlt hne), ih hl⟩

theorem lookup_insertEntry {name k : String} {value : α} {l : List (String × α)}
    (h : l.Pairwise fun a b => precedes a.1 b.1) :
    (insertEntry name value l).lookup k = if k = name then some value else l.lookup k := by
  induction l with
  | nil => simp [insertEntry, lookup_cons_eq]
  | cons e l ih =>
    obtain ⟨he, hl⟩ := List.pairwise_cons.1 h
    rw [insertEntry]
    split
    · simp only [lookup_cons_eq]
    · split
      · next heq => by_cases hk : k = name <;> simp [lookup_cons_eq, hk, ← heq]
      · next hne =>
        rw [lookup_cons_eq, lookup_cons_eq, ih hl]
        by_cases hk : k = e.1
        · simp [hk, Ne.symm hne]
        · simp [hk]

def insert (t : Table α) (name : String) (value : α) : Table α :=
  ⟨insertEntry name value t.entries, sorted_insertEntry t.sorted⟩

theorem get?_insert (t : Table α) (name : String) (value : α) (k : String) :
    (t.insert name value).get? k = if k = name then some value else t.get? k :=
  lookup_insertEntry t.sorted

/-- Of several values for one name the last one counts. -/
def ofList (l : List (String × α)) : Table α :=
  l.foldr (fun e t => if t.contains e.1 then t else t.insert e.1 e.2) empty

/-! ## Removal -/

def erase (t : Table α) (name : String) : Table α :=
  ⟨t.entries.filter fun e => e.1 ≠ name, t.sorted.filter _⟩

theorem lookup_filter_ne (l : List (String × α)) (name k : String) :
    (l.filter fun e => e.1 ≠ name).lookup k = if k = name then none else l.lookup k := by
  induction l with
  | nil => simp
  | cons e l ih =>
    rw [List.filter_cons]
    by_cases he : e.1 = name
    · rw [if_neg (by simp [he]), ih, lookup_cons_eq]
      by_cases hk : k = name <;> simp [hk, he]
    · rw [if_pos (by simp [he]), lookup_cons_eq, lookup_cons_eq, ih]
      by_cases hk : k = e.1 <;> simp [hk, he]

theorem get?_erase (t : Table α) (name k : String) :
    (t.erase name).get? k = if k = name then none else t.get? k :=
  lookup_filter_ne t.entries name k

/-! ## Union -/

/-- Both lists in one order; `combine` joins two values of one name. -/
def unionEntries (combine : α → α → α) :
    List (String × α) → List (String × α) → List (String × α)
  | [], ys => ys
  | x :: xs, [] => x :: xs
  | x :: xs, y :: ys =>
    if precedes x.1 y.1 then x :: unionEntries combine xs (y :: ys)
    else if x.1 = y.1 then (x.1, combine x.2 y.2) :: unionEntries combine xs ys
    else y :: unionEntries combine (x :: xs) ys
termination_by xs ys => xs.length + ys.length

theorem above_cons {low : String} {e : String × α} {l : List (String × α)} :
    Above low (e :: l) ↔ precedes low e.1 ∧ Above low l := by
  simp [Above]

theorem Above.mono {low low' : String} {l : List (String × α)} (h : Above low l)
    (hlow : precedes low' low) : Above low' l := fun e he => precedes_trans hlow (h e he)

theorem above_unionEntries {combine : α → α → α} {low : String} {xs ys : List (String × α)}
    (hx : Above low xs) (hy : Above low ys) : Above low (unionEntries combine xs ys) := by
  fun_induction unionEntries combine xs ys with
  | case1 => exact hy
  | case2 => exact hx
  | case3 x xs y ys h ih => exact above_cons.2 ⟨(above_cons.1 hx).1, ih (above_cons.1 hx).2 hy⟩
  | case4 x xs y ys _ h ih =>
    exact above_cons.2 ⟨(above_cons.1 hx).1, ih (above_cons.1 hx).2 (above_cons.1 hy).2⟩
  | case5 x xs y ys _ _ ih =>
    exact above_cons.2 ⟨(above_cons.1 hy).1, ih hx (above_cons.1 hy).2⟩

theorem sorted_unionEntries {combine : α → α → α} {xs ys : List (String × α)}
    (hx : xs.Pairwise fun a b => precedes a.1 b.1) (hy : ys.Pairwise fun a b => precedes a.1 b.1) :
    (unionEntries combine xs ys).Pairwise fun a b => precedes a.1 b.1 := by
  fun_induction unionEntries combine xs ys with
  | case1 => exact hy
  | case2 => exact hx
  | case3 x xs y ys h ih =>
    obtain ⟨hxa, hxs⟩ := List.pairwise_cons.1 hx
    have hya : Above x.1 (y :: ys) := above_cons.2 ⟨h, (above_of_sorted hy).mono h⟩
    exact List.pairwise_cons.2 ⟨above_unionEntries hxa hya, ih hxs hy⟩
  | case4 x xs y ys _ h ih =>
    obtain ⟨hxa, hxs⟩ := List.pairwise_cons.1 hx
    obtain ⟨hya, hys⟩ := List.pairwise_cons.1 hy
    exact List.pairwise_cons.2 ⟨above_unionEntries hxa (h ▸ hya), ih hxs hys⟩
  | case5 x xs y ys h h' ih =>
    obtain ⟨hya, hys⟩ := List.pairwise_cons.1 hy
    have hlt : precedes y.1 x.1 := precedes_of_not h h'
    have hxa : Above y.1 (x :: xs) := above_cons.2 ⟨hlt, (above_of_sorted hx).mono hlt⟩
    exact List.pairwise_cons.2 ⟨above_unionEntries hxa hya, ih hx hys⟩

def unionWith (combine : α → α → α) (s t : Table α) : Table α :=
  ⟨unionEntries combine s.entries t.entries, sorted_unionEntries s.sorted t.sorted⟩

/-- The value of a name in a union of two tables. -/
def joined (combine : α → α → α) : Option α → Option α → Option α
  | some x, some y => some (combine x y)
  | some x, none => some x
  | none, y => y

theorem lookup_unionEntries {combine : α → α → α} {xs ys : List (String × α)} (k : String)
    (hx : xs.Pairwise fun a b => precedes a.1 b.1) (hy : ys.Pairwise fun a b => precedes a.1 b.1) :
    (unionEntries combine xs ys).lookup k = joined combine (xs.lookup k) (ys.lookup k) := by
  fun_induction unionEntries combine xs ys with
  | case1 => simp [joined]
  | case2 x xs => cases h : (x :: xs).lookup k <;> simp [joined]
  | case3 x xs y ys h ih =>
    have hya : Above x.1 (y :: ys) := above_cons.2 ⟨h, (above_of_sorted hy).mono h⟩
    rw [lookup_cons_eq, lookup_cons_eq k x, ih (List.pairwise_cons.1 hx).2 hy]
    by_cases hk : k = x.1
    · rw [hk, lookup_eq_none_of_above hya]
      simp [joined]
    · simp [hk]
  | case4 x xs y ys _ h ih =>
    rw [lookup_cons_eq, lookup_cons_eq k x, lookup_cons_eq k y,
      ih (List.pairwise_cons.1 hx).2 (List.pairwise_cons.1 hy).2, ← h]
    by_cases hk : k = x.1 <;> simp [hk, joined]
  | case5 x xs y ys h h' ih =>
    have hlt : precedes y.1 x.1 := precedes_of_not h h'
    have hxa : Above y.1 (x :: xs) := above_cons.2 ⟨hlt, (above_of_sorted hx).mono hlt⟩
    rw [lookup_cons_eq, lookup_cons_eq k y, ih hx (List.pairwise_cons.1 hy).2]
    by_cases hk : k = y.1
    · rw [hk, lookup_eq_none_of_above hxa]
      simp [joined]
    · simp [hk]

theorem get?_unionWith (combine : α → α → α) (s t : Table α) (k : String) :
    (s.unionWith combine t).get? k = joined combine (s.get? k) (t.get? k) :=
  lookup_unionEntries k s.sorted t.sorted

/-! ## What a table holds determines it -/

theorem lookup_eq_some_of_mem {l : List (String × α)} (h : l.Pairwise fun a b => precedes a.1 b.1)
    {e : String × α} (he : e ∈ l) : l.lookup e.1 = some e.2 := by
  induction l with
  | nil => cases he
  | cons x l ih =>
    obtain ⟨hx, hl⟩ := List.pairwise_cons.1 h
    rw [lookup_cons_eq]
    rcases List.mem_cons.1 he with rfl | he
    · simp
    · have : e.1 ≠ x.1 := fun heq => precedes_irrefl _ (heq ▸ hx e he)
      rw [if_neg this]
      exact ih hl he

theorem mem_of_lookup_eq_some {l : List (String × α)} {k : String} {v : α}
    (h : l.lookup k = some v) : (k, v) ∈ l := by
  induction l with
  | nil => cases h
  | cons x l ih =>
    rw [lookup_cons_eq] at h
    split at h
    · next hk =>
      obtain rfl := Option.some.inj h
      exact hk ▸ List.mem_cons_self
    · exact List.mem_cons_of_mem _ (ih h)

theorem mem_entries_iff {t : Table α} {k : String} {v : α} :
    (k, v) ∈ t.entries ↔ t.get? k = some v :=
  ⟨fun h => lookup_eq_some_of_mem t.sorted h, mem_of_lookup_eq_some⟩

end Table

end JsonCabinet
