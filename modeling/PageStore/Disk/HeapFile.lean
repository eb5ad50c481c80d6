import PageStore.Disk.SparseFile
import PageStore.Page.Codec
import Std.Data.TreeMap

/-!
# Heap files

A heap file keeps the pages of one table one after another in one file. Its
page count is the number of whole pages in the file; bytes after the last whole
page are ignored. It grows by one page at a time.

Results:
* `pageCount_eq_ok_iff`: the page count is the quotient of sizes, as long as a
  page number can hold it.
* `fileOf_put`: writing one file leaves the others alone.
-/
namespace PageStore

/-- Files by name. -/
abbrev Volume := Std.TreeMap String SparseFile

/-- The bytes kept under a name; none if there is no such file. -/
def Volume.fileOf (v : Volume) (name : String) : SparseFile := v.getD name SparseFile.empty

/-- A table's file: what its pages hold and how it grows. -/
structure HeapFile where
  id : TableId
  name : String
  layout : Layout
  pageSize : Nat
  append : AppendPolicy
  deriving DecidableEq, Repr, Inhabited

namespace HeapFile

/-- The largest page count: page numbers have 32 bits. -/
def maxPages : Nat := UInt32.size - 1

/-! ## Making and opening -/

/-- The heap file kept in a file, if its pages can hold its rows.
mirrors `from_file` -/
def make (id : TableId) (name : String) (layout : Layout) (pageSize : Nat) (append : AppendPolicy) :
    Except Error HeapFile :=
  if layout.columns.isEmpty then .error (.invalidArgument .noColumns)
  else if Geometry.slotCount pageSize layout.width = 0 then
    .error (.invalidArgument (.pageTooSmall pageSize layout.width))
  else .ok ⟨id, name, layout, pageSize, append⟩

/-- The id of a table: the one given, or else the one its file gives it.
mirrors `table_id_for` -/
def idFor (id : Option TableId) (name : String) : TableId := id.getD (.ofFile name)

/-- Creates the file of a new table. The file stays if the table is refused.
mirrors `create`, `create_with_id` -/
def create (v : Volume) (id : Option TableId) (name : String) (layout : Layout) (pageSize : Nat)
    (append : AppendPolicy) : Volume × Except Error HeapFile :=
  if v.contains name then (v, .error (.io .alreadyExists))
  else (v.insert name SparseFile.empty, make (idFor id name) name layout pageSize append)

/-- The table in a file that exists.
mirrors `open`, `open_with_id` -/
def attach (v : Volume) (id : Option TableId) (name : String) (layout : Layout) (pageSize : Nat)
    (append : AppendPolicy) : Except Error HeapFile :=
  if v.contains name then make (idFor id name) name layout pageSize append
  else .error (.io .notFound)

/-- The table in a file, which is created if need be. Its id comes from the file.
mirrors `open_or_create` -/
def attachOrCreate (v : Volume) (name : String) (layout : Layout) (pageSize : Nat)
    (append : AppendPolicy) : Volume × Except Error HeapFile :=
  if v.contains name then (v, attach v none name layout pageSize append)
  else create v none name layout pageSize append

/-! ## Pages -/

/-- The number of whole pages in `size` bytes.
mirrors `pages_in` -/
def pagesIn (size pageSize : Nat) : Except Error Nat :=
  if size / pageSize ≤ maxPages then .ok (size / pageSize)
  else .error (.invalidArgument (.tooManyPages size maxPages pageSize))

/-- mirrors `file_size` -/
def fileSize (f : HeapFile) (v : Volume) : Nat := (v.fileOf f.name).size

/-- mirrors `page_count` -/
def pageCount (f : HeapFile) (v : Volume) : Except Error Nat := pagesIn (f.fileSize v) f.pageSize

/-- Refuses pages of other tables.
mirrors `check_owner` -/
def checkOwner (f : HeapFile) (p : PageId) : Except Error Unit :=
  if p.table = f.id then .ok () else .error (.invalidArgument (.foreignPage p f.id))

/-- Reads a page from the file.
mirrors `read_page` -/
def readPage (f : HeapFile) (v : Volume) (p : PageId) : Except Error Page :=
  match f.checkOwner p with
  | .error e => .error e
  | .ok _ =>
    match (v.fileOf f.name).read (p.offset f.pageSize) f.pageSize with
    | none => .error (.io .endOfFile)
    | some bytes => Page.decode p f.layout f.pageSize bytes

/-- Puts bytes into the file. -/
def put (f : HeapFile) (v : Volume) (start : Nat) (bytes : List UInt8) : Volume :=
  v.insert f.name ((v.fileOf f.name).write start bytes)

/-- Writes a page over the one in the file, or after the last one. A write that is not refused
is complete here; for those that break off see `Store.FailsToWrite`.
mirrors `write_page` -/
def writePage (f : HeapFile) (v : Volume) (p : Page) : Except Error Volume :=
  match f.checkOwner p.id with
  | .error e => .error e
  | .ok _ =>
    if p.size ≠ f.pageSize then
      .error (.invalidArgument (.pageSizeDiffers p.id p.size f.pageSize))
    else if f.fileSize v / f.pageSize < p.id.index then
      .error (.invalidArgument (.gap p.id (f.fileSize v / f.pageSize)))
    else .ok (f.put v (p.id.offset f.pageSize) p.image)

theorem pageCount_eq_ok_iff {f : HeapFile} {v : Volume} {n : Nat} :
    f.pageCount v = .ok n ↔ n = f.fileSize v / f.pageSize ∧ n ≤ maxPages := by
  unfold pageCount pagesIn
  split
  · next h =>
    constructor
    · rintro ⟨⟩; exact ⟨rfl, h⟩
    · rintro ⟨rfl, _⟩; rfl
  · next h =>
    constructor
    · rintro ⟨⟩
    · rintro ⟨rfl, h'⟩; exact absurd h' h

theorem fileOf_put (f : HeapFile) (v : Volume) (start : Nat) (bytes : List UInt8) (name : String) :
    (f.put v start bytes).fileOf name =
      if name = f.name then (v.fileOf name).write start bytes else v.fileOf name := by
  simp only [put, Volume.fileOf, Std.TreeMap.getD_insert, Std.LawfulEqOrd.compare_eq_iff_eq]
  by_cases h : name = f.name
  · simp [h]
  · simp [h, Ne.symm h]

end HeapFile
end PageStore
