import PageStore.Disk.HeapFile

/-!
# The catalog and the storage behind it

The catalog knows the file of every registered table. Pages reach a pool, and
go back to storage, only through the catalog. A registered table may be made to
fail: all writes of its pages, or the reads of some of them. Such a failure
comes before every other check. It meets only what goes through the catalog: an
append writes its page through the heap file itself.

Results:
* `lookup_register`: a registered table is found, and no other table is
  affected.
-/
namespace PageStore

/-- Failures to be expected of a table's storage when a pool reads or writes its pages through
the catalog. The page that an append writes does not meet them. -/
structure Faults where
  writes : Bool
  unreadable : List Nat
  deriving DecidableEq, Repr, Inhabited

def Faults.none : Faults := ⟨false, []⟩

/-- A registered table. -/
structure Mount where
  file : HeapFile
  faults : Faults
  deriving DecidableEq, Repr, Inhabited

/-- Registered tables by id. -/
abbrev Catalog := Std.TreeMap TableId Mount

namespace Catalog

/-- Registers a table under its id, which must be new.
mirrors `add_table` -/
def register (c : Catalog) (m : Mount) : Except Error Catalog :=
  if c.contains m.file.id then .error (.duplicateTable m.file.id) else .ok (c.insert m.file.id m)

/-- mirrors `get_database_file` -/
def lookup (tables : Catalog) (t : TableId) : Except Error Mount :=
  match tables[t]? with
  | some m => .ok m
  | none => .error (.unknownTable t)

/-- The registered tables, ascending.
mirrors `table_ids` -/
def tables (c : Catalog) : List TableId := c.keys

theorem lookup_register {c c' : Catalog} {m : Mount} (h : c.register m = .ok c') (t : TableId) :
    c'.lookup t = if t = m.file.id then .ok m else c.lookup t := by
  unfold register at h
  split at h
  · cases h
  · cases h
    unfold lookup
    rw [Std.TreeMap.getElem?_insert]
    by_cases ht : t = m.file.id
    · simp [ht]
    · simp [ht, Ne.symm ht]

end Catalog

/-- All storage: the files and the catalog of tables. -/
structure Store where
  volume : Volume
  catalog : Catalog

namespace Store

def empty : Store := ⟨∅, ∅⟩

/-- Reads a page through the catalog. -/
def readPage (s : Store) (p : PageId) : Except Error Page :=
  match s.catalog.lookup p.table with
  | .error e => .error e
  | .ok m =>
    if p.index ∈ m.faults.unreadable then .error (.io .unreadable)
    else m.file.readPage s.volume p

/-- Writes a page through the catalog. A write that fails stores nothing here; for those that
break off see `FailsToWrite`. -/
def writePage (s : Store) (p : Page) : Except Error Store :=
  match s.catalog.lookup p.id.table with
  | .error e => .error e
  | .ok m =>
    if m.faults.writes then .error (.io .unwritable)
    else
      match m.file.writePage s.volume p with
      | .error e => .error e
      | .ok v => .ok { s with volume := v }

end Store
end PageStore
