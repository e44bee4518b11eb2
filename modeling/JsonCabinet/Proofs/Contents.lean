import Mathlib
import JsonCabinet.Contents

/-!
# Laws of contents

A table is the table of its entries (`Table.ofList_entries`), and each change of contents is known
by what is found afterwards: a document that was stored, nothing that was removed, and of two
contents merged what the second ones hold before what the first ones do
(`Contents.document?_merge_eq`). Merging contents with themselves changes nothing
(`Contents.merge_self`).
-/

namespace JsonCabinet

open Text

namespace Table

variable {α : Type}

theorem insertEntry_of_above {name : String} {value : α} {l : List (String × α)}
    (h : Above name l) : insertEntry name value l = (name, value) :: l := by
  cases l with
  | nil => rfl
  | cons e l => rw [insertEntry, if_pos (above_cons.1 h).1]

theorem entries_ofList {l : List (String × α)}
    (h : l.Pairwise fun a b => precedes a.1 b.1) : (ofList l).entries = l := by
  induction l with
  | nil => rfl
  | cons e l ih =>
    have habove : Above e.1 l := above_of_sorted h
    have hl : (ofList l).entries = l := ih (List.pairwise_cons.1 h).2
    have hnew : (ofList l).contains e.1 = false := by
      rw [contains, get?, hl, lookup_eq_none_of_above habove]
      rfl
    have hcons : ofList (e :: l) = (ofList l).insert e.1 e.2 := by
      show (if (ofList l).contains e.1 then ofList l else (ofList l).insert e.1 e.2) = _
      rw [hnew]
      rfl
    calc (ofList (e :: l)).entries
        = insertEntry e.1 e.2 (ofList l).entries := by rw [hcons]; rfl
      _ = e :: l := by rw [hl, insertEntry_of_above habove]

theorem ofList_entries (t : Table α) : ofList t.entries = t :=
  eq_of_entries (entries_ofList t.sorted)

/-- The value of the last of several members with this name. -/
def last? {κ : Type} [DecidableEq κ] (name : κ) (ms : List (κ × α)) : Option α :=
  ms.reverse.lookup name

theorem last?_cons {κ : Type} [DecidableEq κ] (name : κ) (m : κ × α) (ms : List (κ × α)) :
    last? name (m :: ms) = (last? name ms).or (if name = m.1 then some m.2 else none) := by
  rw [last?, List.reverse_cons, List.lookup_append, last?]
  by_cases h : name = m.1
  · simp [List.lookup, h]
  · simp [List.lookup, h, beq_false_of_ne h]

/-- The table of a list finds the last value under each name. -/
theorem get?_ofList (l : List (String × α)) (name : String) :
    (ofList l).get? name = last? name l := by
  induction l with
  | nil => rfl
  | cons e l ih =>
    have hcons : ofList (e :: l) =
        if (ofList l).contains e.1 then ofList l else (ofList l).insert e.1 e.2 := rfl
    rw [last?_cons, ← ih, hcons]
    split
    · next h =>
      by_cases hname : name = e.1
      · rw [hname, if_pos rfl, Option.or_of_isSome h]
      · rw [if_neg hname, Option.or_none]
    · next h =>
      rw [get?_insert]
      by_cases hname : name = e.1
      · have hnone : (ofList l).get? e.1 = none := by simpa [contains] using h
        rw [if_pos hname, if_pos hname, hname, hnone, Option.none_or]
      · rw [if_neg hname, if_neg hname, Option.or_none]

/-- Tables in which the same is found are the same. -/
theorem eq_of_get? {s t : Table α} (h : ∀ name, s.get? name = t.get? name) : s = t := by
  have hnodup (t : Table α) : t.entries.Nodup := by
    refine t.sorted.imp fun hlt heq => ?_
    rw [heq] at hlt
    exact precedes_irrefl _ hlt
  have hperm : s.entries.Perm t.entries := by
    refine (List.perm_ext_iff_of_nodup (hnodup s) (hnodup t)).2 fun e => ?_
    rw [← Prod.eta e, mem_entries_iff, mem_entries_iff, h]
  have hanti : ∀ a b, a ∈ s.entries → b ∈ t.entries → precedes a.1 b.1 → precedes b.1 a.1 →
      a = b := fun a b _ _ hab hba => absurd (precedes_trans hab hba) (precedes_irrefl _)
  exact eq_of_entries (hperm.eq_of_pairwise hanti s.sorted t.sorted)

theorem unionEntries_self {combine : α → α → α} {l : List (String × α)}
    (h : ∀ x, combine x x = x) : unionEntries combine l l = l := by
  induction l with
  | nil => rw [unionEntries]
  | cons e l ih =>
    rw [unionEntries, if_neg (precedes_irrefl e.1), if_pos rfl, h, ih]

theorem unionWith_self {combine : α → α → α} (h : ∀ x, combine x x = x) (t : Table α) :
    t.unionWith combine t = t :=
  eq_of_entries (unionEntries_self h)

theorem contains_insert (t : Table α) (name : String) (value : α) (k : String) :
    (t.insert name value).contains k = true ↔ k = name ∨ t.contains k = true := by
  rw [contains, get?_insert, contains]
  by_cases hk : k = name <;> simp [hk]

theorem pairwise_names (t : Table α) : t.names.Pairwise fun a b => precedes a b :=
  List.pairwise_map.2 t.sorted

theorem nodup_names (t : Table α) : t.names.Nodup := by
  refine t.pairwise_names.imp fun h heq => ?_
  rw [heq] at h
  exact precedes_irrefl _ h

theorem mem_names_iff {t : Table α} {k : String} : k ∈ t.names ↔ ∃ v, t.get? k = some v := by
  simp only [names, List.mem_map, ← mem_entries_iff, Prod.exists, exists_and_right,
    exists_eq_right]

/-- A table has as many entries as there are names under which something is found. -/
theorem encard_names (t : Table α) : {k | ∃ v, t.get? k = some v}.encard = t.size := by
  have hset : {k | ∃ v, t.get? k = some v} = ↑t.names.toFinset := by
    ext k
    simp [mem_names_iff]
  rw [hset, Set.encard_coe_eq_coe_finsetCard, List.toFinset_card_of_nodup t.nodup_names, names,
    List.length_map, size]

theorem contains_erase (t : Table α) (name k : String) :
    (t.erase name).contains k = true ↔ k ≠ name ∧ t.contains k = true := by
  rw [contains, get?_erase, contains]
  by_cases hk : k = name <;> simp [hk]

end Table

namespace Contents

theorem merge_self (t : Contents) : t.merge t = t :=
  Table.unionWith_self (Table.unionWith_self fun _ => rfl) t

/-- Contents with the same collections and the same documents are the same. -/
theorem eq_of_document? {t u : Contents} (hc : ∀ c, t.contains c = u.contains c)
    (hd : ∀ c k, t.document? c k = u.document? c k) : t = u := by
  refine Table.eq_of_get? fun c => ?_
  have hcontains := hc c
  rw [Table.contains, Table.contains] at hcontains
  cases ht : t.get? c with
  | none =>
    cases hu : u.get? c with
    | none => rfl
    | some table => rw [ht, hu] at hcontains; cases hcontains
  | some ours =>
    cases hu : u.get? c with
    | none => rw [ht, hu] at hcontains; cases hcontains
    | some theirs =>
      have hkeys : ∀ k, ours.get? k = theirs.get? k := by
        intro k
        have hdocument := hd c k
        rwa [document?, document?, ht, hu] at hdocument
      rw [Table.eq_of_get? hkeys]

theorem contains_of_document? {t : Contents} {collection key : String} {d : Document}
    (h : t.document? collection key = some d) : t.contains collection = true := by
  rw [document?] at h
  rw [Table.contains]
  cases hc : t.get? collection with
  | none =>
    rw [hc] at h
    cases h
  | some table => rfl

theorem document?_put_eq (t : Contents) (c k : String) (d : Document) (collection key : String) :
    (t.put c k d).document? collection key =
      if c = collection ∧ k = key then some d else t.document? collection key := by
  rw [document?, put, Table.get?_insert]
  by_cases hc : collection = c
  · subst hc
    rw [if_pos rfl]
    show (((t.get? collection).getD Table.empty).insert k d).get? key = _
    rw [Table.get?_insert, document?]
    by_cases hk : key = k
    · simp [hk]
    · rw [if_neg hk, if_neg fun h => hk h.2.symm]
      cases t.get? collection with
      | none => rfl
      | some table => rfl
  · rw [if_neg hc, if_neg fun h => hc h.1.symm, document?]

theorem document?_put (t : Contents) (collection key : String) (d : Document) :
    (t.put collection key d).document? collection key = some d := by
  rw [document?_put_eq, if_pos ⟨rfl, rfl⟩]

theorem document?_insert_erase {t : Contents} {c : String} {table : Collection}
    (h : t.get? c = some table) (k collection key : String) :
    document? (t.insert c (table.erase k)) collection key =
      if c = collection ∧ k = key then none else t.document? collection key := by
  rw [document?, Table.get?_insert]
  by_cases hc : collection = c
  · subst hc
    rw [if_pos rfl, document?, h]
    show (table.erase k).get? key =
      if collection = collection ∧ k = key then none else table.get? key
    rw [Table.get?_erase]
    by_cases hk : key = k
    · simp [hk]
    · rw [if_neg hk, if_neg fun h => hk h.2.symm]
  · rw [if_neg hc, if_neg fun h => hc h.1.symm, document?]

theorem document?_erase (t : Contents) (c collection key : String) :
    document? (t.erase c) collection key =
      if c = collection then none else t.document? collection key := by
  rw [document?, Table.get?_erase]
  by_cases hc : collection = c
  · rw [if_pos hc, if_pos hc.symm]
    rfl
  · rw [if_neg hc, if_neg fun h => hc h.symm, document?]

/-- What the second contents hold comes first in the union. -/
theorem document?_merge_eq (t u : Contents) (collection key : String) :
    (t.merge u).document? collection key =
      (u.document? collection key).or (t.document? collection key) := by
  have hget := Table.get?_unionWith (Table.unionWith fun _ (e : Document) => e) t u collection
  rw [document?, merge, hget, document?, document?]
  cases t.get? collection with
  | none =>
    show (u.get? collection).bind (·.get? key) = ((u.get? collection).bind (·.get? key)).or none
    rw [Option.or_none]
  | some ours =>
    cases u.get? collection with
    | none => rfl
    | some theirs =>
      show (ours.unionWith (fun _ e => e) theirs).get? key = (theirs.get? key).or (ours.get? key)
      rw [Table.get?_unionWith]
      cases ours.get? key <;> cases theirs.get? key <;> rfl

theorem contains_merge (t u : Contents) (collection : String) :
    (t.merge u).contains collection = true ↔
      t.contains collection = true ∨ u.contains collection = true := by
  rw [Table.contains, merge, Table.get?_unionWith, Table.contains, Table.contains]
  cases t.get? collection <;> cases u.get? collection <;> simp [Table.joined]

/-- What the second contents hold is found in the union as they hold it. -/
theorem document?_merge {t u : Contents} {collection key : String} {d : Document}
    (h : u.document? collection key = some d) :
    (t.merge u).document? collection key = some d := by
  rw [document?_merge_eq, h, Option.some_or]

end Contents

end JsonCabinet
