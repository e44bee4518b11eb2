import JsonCabinet.Proofs.Steps

/-!
# Pages partition a collection

Every entry of a table has a rank, the number of names that come before its own
(`Table.rank_of_getElem?`), and a window holds the entries of an interval of ranks
(`Table.mem_window_entries_iff`). The offset of a window may be cut down to a word, but a table
ends before that, so no page comes back round to the beginning (`drop_min`). Windows of one size
beside each other make up the whole table (`flatMap_windows`).
-/

namespace JsonCabinet

open Text

/-! ## Windows of a list -/

section Windows

variable {α : Type} {l : List α} {size : Nat}

/-- An offset that is cut down to a bound of the length leads behind the end as before. -/
theorem drop_min {bound : Nat} (h : l.length ≤ bound) (offset : Nat) :
    l.drop (min offset bound) = l.drop offset := by
  rcases Nat.le_total offset bound with hle | hle
  · rw [Nat.min_eq_left hle]
  · rw [Nat.min_eq_right hle, List.drop_eq_nil_of_le h, List.drop_eq_nil_of_le (h.trans hle)]

theorem flatMap_windows (l : List α) (size count : Nat) :
    (List.range count).flatMap (fun i => (l.drop (i * size)).take size) =
      l.take (count * size) := by
  induction count with
  | zero => simp
  | succ count ih =>
    rw [List.range_succ, List.flatMap_append, ih, List.flatMap_singleton, Nat.succ_mul,
      List.take_add]

theorem mem_window_iff {offset : Nat} {x : α} :
    x ∈ (l.drop offset).take size ↔ ∃ i, l[i]? = some x ∧ offset ≤ i ∧ i < offset + size := by
  simp only [List.mem_iff_getElem?, List.getElem?_take, List.getElem?_drop,
    Option.ite_none_right_eq_some]
  constructor
  · rintro ⟨i, hi, hx⟩
    exact ⟨offset + i, hx, by omega, by omega⟩
  · rintro ⟨i, hx, hle, hlt⟩
    refine ⟨i - offset, by omega, ?_⟩
    rwa [Nat.add_sub_cancel' hle]

/-- So many windows hold the whole list. -/
theorem length_le_ceilDiv_mul (l : List α) (hsize : 0 < size) :
    l.length ≤ (l.length ⌈/⌉ size) * size := by
  have h := le_smul_ceilDiv hsize (b := l.length)
  rwa [smul_eq_mul, Nat.mul_comm] at h

end Windows

/-! ## Ranks -/

namespace Table

variable {α : Type} {t : Table α} {k : String} {v : α}

/-- The number of names that come before this one. -/
def rank (t : Table α) (name : String) : Nat := t.names.countP (precedes · name)

theorem rank_of_getElem? {i : Nat} (h : t.entries[i]? = some (k, v)) : t.rank k = i := by
  obtain ⟨hlt, hget⟩ := List.getElem?_eq_some_iff.1 h
  have hsplit : t.entries = t.entries.take i ++ (k, v) :: t.entries.drop (i + 1) := by
    rw [← hget, ← List.drop_eq_getElem_cons hlt, List.take_append_drop]
  -- The names in front come before this one, and neither it nor those behind it do.
  have hsorted := t.sorted
  rw [hsplit, List.pairwise_append] at hsorted
  obtain ⟨-, hbehind, hbefore⟩ := hsorted
  have hall : ∀ e ∈ t.entries.take i, precedes e.1 k = true := fun e he =>
    hbefore e he _ List.mem_cons_self
  have hnone : ∀ e ∈ (k, v) :: t.entries.drop (i + 1), ¬precedes e.1 k = true := by
    refine List.forall_mem_cons.2 ⟨precedes_irrefl k, fun e he hlow => ?_⟩
    have hhigh : precedes k e.1 = true := (List.pairwise_cons.1 hbehind).1 e he
    exact precedes_irrefl k (precedes_trans hhigh hlow)
  calc t.rank k
      = t.entries.countP (fun e => precedes e.1 k) := List.countP_map
    _ = (t.entries.take i).countP (fun e => precedes e.1 k) +
          ((k, v) :: t.entries.drop (i + 1)).countP (fun e => precedes e.1 k) := by
        rw [← List.countP_append, ← hsplit]
    _ = i := by
        rw [List.countP_eq_length.2 hall, List.countP_eq_zero.2 hnone, List.length_take,
          Nat.min_eq_left hlt.le, Nat.add_zero]

theorem getElem?_rank (h : t.get? k = some v) : t.entries[t.rank k]? = some (k, v) := by
  obtain ⟨i, hi⟩ := List.mem_iff_getElem?.1 (mem_entries_iff.2 h)
  rwa [rank_of_getElem? hi]

theorem rank_lt_size (h : t.get? k = some v) : t.rank k < t.size :=
  (List.getElem?_eq_some_iff.1 (getElem?_rank h)).1

/-- A window of the entries holds those of an interval of ranks. -/
theorem mem_window_entries_iff {offset size : Nat} :
    (k, v) ∈ (t.entries.drop offset).take size ↔
      t.get? k = some v ∧ offset ≤ t.rank k ∧ t.rank k < offset + size := by
  rw [mem_window_iff]
  constructor
  · rintro ⟨i, hi, hle, hlt⟩
    rw [rank_of_getElem? hi]
    exact ⟨mem_entries_iff.1 (List.mem_of_getElem? hi), hle, hlt⟩
  · rintro ⟨hv, hle, hlt⟩
    exact ⟨t.rank k, getElem?_rank hv, hle, hlt⟩

end Table

/-! ## Pages -/

namespace PageWindow

/-- A page shows nothing but what is found in the table. -/
theorem get?_of_slice {α : Type} {w : PageWindow} {t : Table α} {k : String} {v : α}
    (h : (w.slice t).get? k = some v) : t.get? k = some v := by
  have hmem : (k, v) ∈ (t.entries.drop w.offset).take w.limit := Table.mem_entries_iff.2 h
  exact Table.mem_entries_iff.1 (List.mem_of_mem_drop (List.mem_of_mem_take hmem))

theorem get?_slice {α : Type} (w : PageWindow) {t : Table α} {k : String}
    (h : t.get? k = none) : (w.slice t).get? k = none := by
  refine Option.eq_none_iff_forall_ne_some.2 fun v hv => ?_
  rw [get?_of_slice hv] at h
  cases h

/-- How many entries a page has, but for the last. -/
def perPage (limit : Int) (greatest : Nat) : Nat :=
  if 1 ≤ limit ∧ limit ≤ greatest then limit.toNat else greatest

/-- Pages are counted from one. -/
def number (page : Int) : Nat := (max page 1).toNat

theorem one_le_number (page : Int) : 1 ≤ number page := by
  unfold number
  omega

theorem perPage_pos {limit : Int} {greatest : Nat} (h : 1 ≤ greatest) :
    0 < perPage limit greatest := by
  unfold perPage
  split <;> omega

theorem clamp_eq (limit page : Int) (greatest : Nat) :
    clamp limit page greatest = ⟨perPage limit greatest, number page,
      min ((number page - 1) * perPage limit greatest) Word.greatest⟩ := by
  have hpage : (if page < 1 then 1 else page.toNat) = number page := by
    unfold number
    split <;> omega
  simp only [clamp, hpage, perPage]

/-- No offset of a page is too great for the entries of a table of words. -/
theorem entries_slice_clamp {α : Type} {t : Table α} (ht : t.size ≤ Word.greatest)
    (limit page : Int) (greatest : Nat) :
    ((clamp limit page greatest).slice t).entries =
      (t.entries.drop ((number page - 1) * perPage limit greatest)).take
        (perPage limit greatest) := by
  rw [clamp_eq]
  show (t.entries.drop (min _ Word.greatest)).take _ = _
  rw [drop_min ht]

end PageWindow

/-- The page holds just the entries of these ranks, in the order of the bytes of their keys. -/
structure ListPage.Shows (p : ListPage) (t : Collection) (first behind : Nat) : Prop where
  total : p.total = t.size
  mem_iff : ∀ k d, (k, d) ∈ p.items.entries ↔
    t.get? k = some d ∧ first ≤ t.rank k ∧ t.rank k < behind
  ordered : p.items.names.Pairwise fun a b =>
    (Bytes.ofString a).precedes (Bytes.ofString b) = true

namespace Store

open PageWindow

variable {s : Store} {name c : String} {table : Collection} {limit : Int}

theorem list_eq (hname : s.settings.collectionName name = .ok c)
    (htable : s.contents.get? c = some table) (limit page : Int) :
    s.list name limit page =
      .ok ⟨(clamp limit page s.settings.maxPageSize).slice table, table.size⟩ := by
  simp only [list, hname, htable]

theorem names_ordered {α : Type} (t : Table α) :
    t.names.Pairwise fun a b => (Bytes.ofString a).precedes (Bytes.ofString b) = true :=
  t.pairwise_names.imp fun h => by rwa [precedes_eq] at h

theorem shows_slice (hsize : table.size ≤ Word.greatest) (limit page : Int) (greatest : Nat) :
    ListPage.Shows ⟨(clamp limit page greatest).slice table, table.size⟩ table
      ((number page - 1) * perPage limit greatest)
      (min (number page * perPage limit greatest) table.size) where
  total := rfl
  mem_iff k d := by
    have hnext : (number page - 1) * perPage limit greatest + perPage limit greatest =
        number page * perPage limit greatest := by
      rw [← Nat.succ_mul, Nat.succ_eq_add_one, Nat.sub_add_cancel (one_le_number page)]
    rw [entries_slice_clamp hsize, Table.mem_window_entries_iff, hnext]
    constructor
    · rintro ⟨hd, hle, hlt⟩
      exact ⟨hd, hle, lt_min hlt (Table.rank_lt_size hd)⟩
    · rintro ⟨hd, hle, hlt⟩
      exact ⟨hd, hle, lt_of_lt_of_le hlt (min_le_left _ _)⟩
  ordered := names_ordered _

/-- All pages that are not empty, one behind the other, are the whole table. -/
theorem flatMap_entries_slice (hsize : table.size ≤ Word.greatest) (limit : Int) {greatest : Nat}
    (hpos : 0 < perPage limit greatest) :
    (List.range (table.size ⌈/⌉ perPage limit greatest)).flatMap
        (fun i : Nat => ((clamp limit (i + 1) greatest).slice table).entries) = table.entries := by
  have hpage (i : Nat) : ((clamp limit (i + 1) greatest).slice table).entries =
      (table.entries.drop (i * perPage limit greatest)).take (perPage limit greatest) := by
    have hnumber : number ((i : Int) + 1) - 1 = i := by
      unfold number
      omega
    rw [entries_slice_clamp hsize, hnumber]
  simp only [hpage]
  rw [flatMap_windows]
  exact List.take_of_length_le (length_le_ceilDiv_mul table.entries hpos)

theorem entries_slice_behind (hsize : table.size ≤ Word.greatest) {page : Int} {greatest : Nat}
    (hpos : 0 < perPage limit greatest)
    (hpage : (table.size ⌈/⌉ perPage limit greatest : Nat) < page) :
    ((clamp limit page greatest).slice table).entries = [] := by
  have hnumber : table.size ⌈/⌉ perPage limit greatest ≤ number page - 1 := by
    unfold number
    omega
  have hend : table.entries.length ≤ (number page - 1) * perPage limit greatest :=
    (length_le_ceilDiv_mul table.entries hpos).trans (Nat.mul_le_mul_right _ hnumber)
  rw [entries_slice_clamp hsize, List.drop_eq_nil_of_le hend, List.take_nil]

/-- A page of an existing collection shows the number of all its documents, and just those of the
ranks of the page, in the order of their keys. For one limit, the pages from the first on, as many
as the documents need, make up the whole collection, each document once and in order, and the
pages behind them are empty, however great the product of page and limit is. -/
theorem pages_partition_collection (hmax : 1 ≤ s.settings.maxPageSize)
    (hname : s.settings.collectionName name = .ok c) (htable : s.contents.get? c = some table)
    (hsize : table.size ≤ Word.greatest) (limit : Int) :
    let size := perPage limit s.settings.maxPageSize
    (∀ page, ∃ p, s.list name limit page = .ok p ∧
      p.Shows table ((number page - 1) * size) (min (number page * size) table.size)) ∧
    (∃ pages, (List.range (table.size ⌈/⌉ size)).mapM (fun i : Nat => s.list name limit (i + 1)) =
        .ok pages ∧
      (∀ k d, (k, d) ∈ pages.flatMap (·.items.entries) ↔ table.get? k = some d) ∧
      ((pages.flatMap (·.items.entries)).map Prod.fst).Pairwise fun a b =>
        (Bytes.ofString a).precedes (Bytes.ofString b) = true) ∧
    ∀ page : Int, (table.size ⌈/⌉ size : Nat) < page →
      ∃ p, s.list name limit page = .ok p ∧ p.items.entries = [] := by
  intro size
  have hpos : 0 < size := perPage_pos hmax
  have hlist := list_eq (s := s) hname htable limit
  refine ⟨fun page => ⟨_, hlist page, shows_slice hsize limit page _⟩, ?_,
    fun page hpage => ⟨_, hlist page, entries_slice_behind hsize hpos hpage⟩⟩
  let page (i : Nat) : ListPage :=
    ⟨(clamp limit (i + 1) s.settings.maxPageSize).slice table, table.size⟩
  have hall : ((List.range (table.size ⌈/⌉ size)).map page).flatMap (·.items.entries) =
      table.entries := by
    rw [List.flatMap_map]
    exact flatMap_entries_slice hsize limit hpos
  refine ⟨(List.range (table.size ⌈/⌉ size)).map page, ?_, fun k d => ?_, ?_⟩
  · simp only [hlist]
    exact List.mapM_pure
  · rw [hall, Table.mem_entries_iff]
  · rw [hall]
    exact names_ordered table

/-- Three documents whose keys were put in out of order, in the collection that an empty name stands
for, and no more than two of them on a page. -/
def threeDocuments : Collection :=
  ((Table.empty.insert "é" one).insert "b" one).insert "a" one

def twoPerPage : Store :=
  ⟨{ Settings.initial with maxPageSize := 2 }, Table.empty.insert "default" threeDocuments⟩

theorem three_documents_fill_two_pages :
    (∃ pages, (List.range (threeDocuments.size ⌈/⌉ 2)).mapM
        (fun i : Nat => twoPerPage.list "" 0 (i + 1)) = .ok pages ∧
      (∀ k d, (k, d) ∈ pages.flatMap (·.items.entries) ↔ threeDocuments.get? k = some d) ∧
      ((pages.flatMap (·.items.entries)).map Prod.fst).Pairwise fun a b =>
        (Bytes.ofString a).precedes (Bytes.ofString b) = true) ∧
    ∃ p, twoPerPage.list "" 0 Word.greatestSigned = .ok p ∧ p.items.entries = [] := by
  have htable : twoPerPage.contents.get? "default" = some threeDocuments := by
    rw [twoPerPage, Table.get?_insert, if_pos rfl]
  have hsize : threeDocuments.size = 3 := by cbv
  have hpages : (threeDocuments.size ⌈/⌉ 2 : Nat) < Word.greatestSigned := by
    rw [hsize]
    decide
  have hmax : 1 ≤ twoPerPage.settings.maxPageSize := by decide
  have hname : twoPerPage.settings.collectionName "" = .ok "default" := rfl
  obtain ⟨-, hpartition, hbehind⟩ :=
    pages_partition_collection hmax hname htable (hsize ▸ by decide) 0
  exact ⟨hpartition, hbehind _ hpages⟩

end Store

end JsonCabinet
