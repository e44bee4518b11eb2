import JsonCabinet.Bytes

/-!
# What a directory holds

The entries of a directory: regular files with their content, and directories with entries of
their own. What is at a location below is found name by name. A change touches the entries of one
directory (`within_alter`), and what is placed or taken away there is (`node?_put_self`,
`node?_remove_self`); what is not at or below its place stays as it was
(`node?_put_of_not_prefix`, `node?_remove_of_not_prefix`).
-/

namespace JsonCabinet.Files

/-- The names on the way from the root. -/
abbrev Location := List String

inductive Node
  | directory
  | file (content : Bytes)
  deriving DecidableEq, Repr

inductive Entries
  | nil
  | file (name : String) (content : Bytes) (others : Entries)
  | directory (name : String) (inside others : Entries)
  deriving DecidableEq, Repr

namespace Entries

/-! ## One directory -/

def get? (name : String) : Entries → Option Node
  | .nil => none
  | .file here content others => if here = name then some (.file content) else others.get? name
  | .directory here _ others => if here = name then some .directory else others.get? name

/-- What the directory of this name holds; nothing if there is none. -/
def inside (name : String) : Entries → Entries
  | .nil => .nil
  | .file here _ others => if here = name then .nil else others.inside name
  | .directory here inner others => if here = name then inner else others.inside name

def erase (name : String) : Entries → Entries
  | .nil => .nil
  | .file here content others =>
    if here = name then others.erase name else .file here content (others.erase name)
  | .directory here inner others =>
    if here = name then others.erase name else .directory here inner (others.erase name)

/-- Places a directory, instead of what was there. -/
def setInside (name : String) (e inner : Entries) : Entries := .directory name inner (e.erase name)

/-- Places a file or an empty directory, instead of what was there. -/
def insert (name : String) (node : Node) (e : Entries) : Entries :=
  match node with
  | .directory => setInside name e .nil
  | .file content => .file name content (e.erase name)

def names : Entries → List String
  | .nil => []
  | .file name _ others => name :: others.names
  | .directory name _ others => name :: others.names

theorem get?_erase_self (name : String) (e : Entries) : (e.erase name).get? name = none := by
  induction e with
  | nil => rfl
  | file here content others ih =>
    by_cases h : here = name <;> simp [erase, get?, h, ih]
  | directory here inner others _ ih =>
    by_cases h : here = name <;> simp [erase, get?, h, ih]

theorem get?_erase_of_ne {name other : String} (h : other ≠ name) (e : Entries) :
    (e.erase name).get? other = e.get? other := by
  induction e with
  | nil => rfl
  | file here content others ih =>
    by_cases hn : here = name
    · simp [erase, get?, hn, ih, h.symm]
    · simp [erase, get?, hn, ih]
  | directory here inner others _ ih =>
    by_cases hn : here = name
    · simp [erase, get?, hn, ih, h.symm]
    · simp [erase, get?, hn, ih]

theorem inside_erase_of_ne {name other : String} (h : other ≠ name) (e : Entries) :
    (e.erase name).inside other = e.inside other := by
  induction e with
  | nil => rfl
  | file here content others ih =>
    by_cases hn : here = name
    · simp [erase, inside, hn, ih, h.symm]
    · simp [erase, inside, hn, ih]
  | directory here inner others _ ih =>
    by_cases hn : here = name
    · simp [erase, inside, hn, ih, h.symm]
    · simp [erase, inside, hn, ih]

theorem get?_insert_self (name : String) (node : Node) (e : Entries) :
    (e.insert name node).get? name = some node := by
  cases node <;> simp [insert, setInside, get?]

theorem get?_insert_of_ne {name other : String} (node : Node) (h : other ≠ name) (e : Entries) :
    (e.insert name node).get? other = e.get? other := by
  cases node <;> simp [insert, setInside, get?, h.symm, get?_erase_of_ne h]

theorem inside_insert_of_ne {name other : String} (node : Node) (h : other ≠ name)
    (e : Entries) : (e.insert name node).inside other = e.inside other := by
  cases node <;> simp [insert, setInside, inside, h.symm, inside_erase_of_ne h]

/-! ## Below -/

/-- What the directory at a location holds; nothing if there is none. -/
def within (e : Entries) (loc : Location) : Entries := loc.foldl (fun e name => e.inside name) e

/-- What is at a location. -/
def node? : Entries → Location → Option Node
  | _, [] => some .directory
  | e, [name] => e.get? name
  | e, name :: next :: loc => (e.inside name).node? (next :: loc)

/-- Changes what the directory at a location holds, if there is one. -/
def alter (change : Entries → Entries) : Entries → Location → Entries
  | e, [] => change e
  | e, name :: loc =>
    if e.get? name = some .directory then setInside name e ((e.inside name).alter change loc)
    else e

def put (e : Entries) (dir : Location) (name : String) (node : Node) : Entries :=
  e.alter (insert name node) dir

def remove (e : Entries) (dir : Location) (name : String) : Entries := e.alter (erase name) dir

/-- Takes away all that a directory holds. -/
def clear (e : Entries) (loc : Location) : Entries := e.alter (fun _ => .nil) loc

/-- All locations at which something is, a directory before what it holds. -/
def nodes : Entries → List (Location × Node)
  | .nil => []
  | .file name content others => ([name], .file content) :: others.nodes
  | .directory name inner others =>
    ([name], .directory) :: (inner.nodes.map fun e => (name :: e.1, e.2)) ++ others.nodes

/-! ## What a change leaves -/

theorem inside_of_get?_ne {name : String} {e : Entries} (h : e.get? name ≠ some .directory) :
    e.inside name = .nil := by
  induction e with
  | nil => rfl
  | file here content others ih =>
    by_cases hn : here = name
    · simp [inside, hn]
    · simp only [get?, hn, if_false] at h
      simp [inside, hn, ih h]
  | directory here inner others _ ih =>
    by_cases hn : here = name
    · simp [get?, hn] at h
    · simp only [get?, hn, if_false] at h
      simp [inside, hn, ih h]

theorem get?_setInside_self (name : String) (e inner : Entries) :
    (setInside name e inner).get? name = some .directory := by
  simp [setInside, get?]

theorem inside_setInside_self (name : String) (e inner : Entries) :
    (setInside name e inner).inside name = inner := by
  simp [setInside, inside]

theorem get?_setInside_of_ne {name other : String} (h : other ≠ name) (e inner : Entries) :
    (setInside name e inner).get? other = e.get? other := by
  simp [setInside, get?, h.symm, get?_erase_of_ne h]

theorem inside_setInside_of_ne {name other : String} (h : other ≠ name) (e inner : Entries) :
    (setInside name e inner).inside other = e.inside other := by
  simp [setInside, inside, h.symm, inside_erase_of_ne h]

theorem node?_nil_of_ne {loc : Location} (h : loc ≠ []) : nil.node? loc = none := by
  induction loc with
  | nil => exact absurd rfl h
  | cons name loc ih =>
    cases loc with
    | nil => rfl
    | cons next loc => exact ih (by simp)

/-- Below its first name, a location is followed in what the directory of that name holds. -/
theorem node?_cons (e : Entries) (name : String) (loc : Location) :
    e.node? (name :: loc) = if loc = [] then e.get? name else (e.inside name).node? loc := by
  cases loc <;> simp [node?]

theorem within_alter {e : Entries} {dir : Location} (change : Entries → Entries)
    (h : e.node? dir = some .directory) :
    (e.alter change dir).within dir = change (e.within dir) := by
  induction dir generalizing e with
  | nil => rfl
  | cons name dir ih =>
    have hd : e.get? name = some .directory := by
      by_cases hn : e.get? name = some .directory
      · exact hn
      · rw [node?_cons] at h
        split at h
        · exact h
        · next hne => rw [inside_of_get?_ne hn, node?_nil_of_ne hne] at h; cases h
    have hi : (e.inside name).node? dir = some .directory := by
      rw [node?_cons] at h
      split at h
      · next hdir => subst hdir; rfl
      · exact h
    simp only [alter, hd, if_true, within, List.foldl_cons, inside_setInside_self]
    exact ih hi

/-- What is at a location stays if the directory on the way to it leads on to the same. -/
theorem node?_setInside_of_eq {name : String} {e inner : Entries} {loc : Location}
    (hd : e.get? name = some .directory)
    (h : ∀ rest, loc = name :: rest → inner.node? rest = (e.inside name).node? rest) :
    (setInside name e inner).node? loc = e.node? loc := by
  cases loc with
  | nil => rfl
  | cons other rest =>
    rw [node?_cons, node?_cons]
    by_cases hn : other = name
    · subst hn
      rw [get?_setInside_self, inside_setInside_self, hd, h rest rfl]
    · rw [get?_setInside_of_ne hn, inside_setInside_of_ne hn]

/-- A change of one directory that spares all names but one leaves what is at other locations,
unless they lead through that name. -/
theorem node?_alter_of_not_below {dir loc : Location} {name : String}
    {change : Entries → Entries}
    (hget : ∀ other e, other ≠ name → (change e).get? other = e.get? other)
    (hinside : ∀ other e, other ≠ name → (change e).inside other = e.inside other)
    (h : ¬ dir ++ [name] <+: loc) (e : Entries) :
    (e.alter change dir).node? loc = e.node? loc := by
  induction dir generalizing e loc with
  | nil =>
    cases loc with
    | nil => rfl
    | cons other loc =>
      have hn : other ≠ name := fun hn => h (hn ▸ by simp)
      rw [alter, node?_cons, node?_cons, hget other e hn, hinside other e hn]
  | cons here dir ih =>
    simp only [alter]
    split
    · next hd =>
      refine node?_setInside_of_eq hd ?_
      rintro rest rfl
      exact ih (fun hp => h (List.cons_prefix_cons.2 ⟨rfl, hp⟩)) _
    · rfl

theorem node?_put_of_not_prefix {dir loc : Location} {name : String} (node : Node)
    (h : ¬ dir ++ [name] <+: loc) (e : Entries) :
    (e.put dir name node).node? loc = e.node? loc :=
  node?_alter_of_not_below (fun _ e hn => get?_insert_of_ne node hn e)
    (fun _ e hn => inside_insert_of_ne node hn e) h e

theorem node?_remove_of_not_prefix {dir loc : Location} {name : String}
    (h : ¬ dir ++ [name] <+: loc) (e : Entries) :
    (e.remove dir name).node? loc = e.node? loc :=
  node?_alter_of_not_below (fun _ e hn => get?_erase_of_ne hn e)
    (fun _ e hn => inside_erase_of_ne hn e) h e

/-- The last name of a location is looked up in what the directory before it holds. -/
theorem node?_append_singleton (e : Entries) (dir : Location) (name : String) :
    e.node? (dir ++ [name]) = (e.within dir).get? name := by
  induction dir generalizing e with
  | nil => rfl
  | cons here dir ih =>
    rw [List.cons_append, node?_cons]
    simp [within, ih]

theorem node?_put_self {e : Entries} {dir : Location} (name : String) (node : Node)
    (h : e.node? dir = some .directory) :
    (e.put dir name node).node? (dir ++ [name]) = some node := by
  rw [node?_append_singleton, put, within_alter _ h, get?_insert_self]

theorem node?_remove_self {e : Entries} {dir : Location} (name : String)
    (h : e.node? dir = some .directory) :
    (e.remove dir name).node? (dir ++ [name]) = none := by
  rw [node?_append_singleton, remove, within_alter _ h, get?_erase_self]

end Entries

end JsonCabinet.Files
