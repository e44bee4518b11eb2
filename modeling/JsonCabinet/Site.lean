import JsonCabinet.Operation

/-!
# Sites

Several stores over one file system, some of which may have the same file. Stores are numbered in
the order in which they were opened, and act one at a time.
-/

namespace JsonCabinet

open Files

structure Site where
  files : FileSystem
  stores : List Store
  deriving DecidableEq

namespace Site

def fresh : Site := ⟨.fresh, []⟩

/-- The site once one of its stores has acted. -/
def settle (site : Site) (number : Nat) (s : Store) (fs : FileSystem) : Site :=
  ⟨fs, site.stores.set number s⟩

/-- Adds a store, which gets the next number. -/
def add (site : Site) (s : Store) : Site := { site with stores := site.stores ++ [s] }

/-- Opens one more store. Directories and files that were made on the way stay, even if the store
cannot be opened. -/
def openStore (site : Site) (settings : Settings) : Except StoreError Unit × Site :=
  match Store.openWith settings site.files with
  | (.error e, fs) => (.error e, { site with files := fs })
  | (.ok s, fs) => (.ok (), { site with files := fs }.add s)

/-- An operation of one of the stores, if there is a store of this number. -/
def perform (site : Site) (number : Nat) (op : Operation) :
    Option (Except StoreError Answer) × Site :=
  match site.stores[number]? with
  | none => (none, site)
  | some s =>
    let o := s.perform site.files op
    (some o.result, site.settle number o.store o.files)

end Site

end JsonCabinet
