/-!
# Files as the edits made to them

A file is its size and the list of edits that led to its bytes, latest first.
Bytes that were never written are zero, so a file may be far larger than what
was written to it.

Results:
* `byteAt_write`, `byteAt_resize`: what each edit does to every byte.
* `size_write`, `size_resize`: what it does to the size.
* `read_eq_some_iff`: only bytes inside the file can be read.
-/
namespace PageStore

/-- An edit of a file's bytes. -/
inductive FileEdit
  /-- puts bytes at a position -/
  | put (start : Nat) (bytes : Array UInt8)
  /-- makes everything from a position on zero -/
  | clear (start : Nat)
  deriving DecidableEq, Repr, Inhabited

/-- The byte that an edit puts at a position, if it concerns it. -/
def FileEdit.byte? : FileEdit → Nat → Option UInt8
  | put start bytes, i => if start ≤ i then bytes[i - start]? else none
  | clear start, i => if start ≤ i then some 0 else none

/-- A file's size and the edits made to it, latest first. -/
structure SparseFile where
  size : Nat
  edits : List FileEdit
  deriving DecidableEq, Repr, Inhabited

namespace SparseFile

def empty : SparseFile := ⟨0, []⟩

/-- The byte at a position; zero where nothing was written. -/
def byteAt (f : SparseFile) (i : Nat) : UInt8 := (f.edits.findSome? (·.byte? i)).getD 0

/-- Writes bytes at a position, past the end if need be. -/
def write (f : SparseFile) (start : Nat) (bytes : List UInt8) : SparseFile :=
  if bytes.isEmpty then f
  else ⟨max f.size (start + bytes.length), .put start bytes.toArray :: f.edits⟩

/-- Cuts the file, or makes it longer by zeros. -/
def resize (f : SparseFile) (size : Nat) : SparseFile :=
  ⟨size, .clear (min f.size size) :: f.edits⟩

/-- The bytes from a position on, whether the file holds them or not. -/
def bytesAt (f : SparseFile) (start length : Nat) : List UInt8 :=
  (List.range length).map fun i => f.byteAt (start + i)

/-- Reads bytes; all of them have to lie in the file. -/
def read (f : SparseFile) (start length : Nat) : Option (List UInt8) :=
  if start + length ≤ f.size then some (f.bytesAt start length) else none

/-- All bytes of the file. -/
def contents (f : SparseFile) : List UInt8 := f.bytesAt 0 f.size

@[simp] theorem size_resize (f : SparseFile) (size : Nat) : (f.resize size).size = size := rfl

theorem size_write (f : SparseFile) (start : Nat) {bytes : List UInt8} (h : bytes ≠ []) :
    (f.write start bytes).size = max f.size (start + bytes.length) := by
  simp [write, h]

theorem byteAt_resize (f : SparseFile) (size i : Nat) :
    (f.resize size).byteAt i = if i < min f.size size then f.byteAt i else 0 := by
  simp only [resize, byteAt, List.findSome?_cons, FileEdit.byte?]
  by_cases h : i < min f.size size
  · simp [h, Nat.not_le.2 h]
  · simp [h, Nat.not_lt.1 h]

theorem byteAt_write (f : SparseFile) (start : Nat) (bytes : List UInt8) (i : Nat) :
    (f.write start bytes).byteAt i =
      if start ≤ i then (bytes[i - start]?).getD (f.byteAt i) else f.byteAt i := by
  unfold write
  split
  · next h =>
    rw [List.isEmpty_iff.1 h]
    simp
  · simp only [byteAt, List.findSome?_cons, FileEdit.byte?]
    by_cases h : start ≤ i
    · simp only [h, if_true, List.getElem?_toArray]
      cases bytes[i - start]? <;> rfl
    · simp [h]

@[simp] theorem length_bytesAt (f : SparseFile) (start length : Nat) :
    (f.bytesAt start length).length = length := by
  simp [bytesAt]

theorem read_eq_some_iff {f : SparseFile} {start length : Nat} {bytes : List UInt8} :
    f.read start length = some bytes ↔ start + length ≤ f.size ∧ bytes = f.bytesAt start length := by
  unfold read
  split
  · next h => simp [h, eq_comm]
  · next h => simp [h]

end SparseFile
end PageStore
