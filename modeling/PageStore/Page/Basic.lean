import PageStore.Page.Geometry
import PageStore.Row.Tuple

/-!
# Pages of rows

A page has a fixed number of slots, each free or holding a row that carries
the record id of its slot. A page that was changed and not yet stored is dirty
and remembers for which transaction.

Results:
* `rows_empty`, `length_rows_add_freeCount`: a new page holds no row, and every
  slot of a page holds a row or is free.
* `freeSlot?_eq_none_iff`: there is no free slot exactly when every slot holds a row.
-/
namespace PageStore

/-- A page of a table, with the transaction that changed it since it was last
stored, if there is one. -/
structure Page where
  id : PageId
  layout : Layout
  size : Nat
  slots : List (Option Tuple)
  dirtier : Option TxnId
  deriving DecidableEq, Repr, Inhabited

namespace Page

/-- A clean page with every slot free. -/
def empty (id : PageId) (layout : Layout) (size : Nat) : Page :=
  ⟨id, layout, size, List.replicate (Geometry.slotCount size layout.width) none, none⟩

/-- The row in a slot. -/
def row? (p : Page) (slot : Nat) : Option Tuple := (p.slots[slot]?).join

def isUsed (p : Page) (slot : Nat) : Bool := (p.row? slot).isSome

/-- The rows, by ascending slot. -/
def rows (p : Page) : List Tuple := p.slots.filterMap fun s => s

/-- The rows with their slots, by ascending slot. -/
def numberedRows (p : Page) : List (Nat × Tuple) :=
  (p.slots.zipIdx).filterMap fun s => s.1.map (s.2, ·)

def freeCount (p : Page) : Nat := p.slots.countP Option.isNone

/-- The lowest free slot. -/
def freeSlot? (p : Page) : Option Nat := p.slots.findIdx? Option.isNone

def isDirty (p : Page) : Bool := p.dirtier.isSome

/-- The page, dirty for a transaction, or clean. -/
def withDirtier (p : Page) (txn : Option TxnId) : Page := { p with dirtier := txn }

/-- Puts a row into the lowest free slot and gives it the record id of the slot.
mirrors `insert_tuple` -/
def insert (p : Page) (t : Tuple) : Except Error (Page × RecordId) :=
  if t.layout.agrees p.layout then
    match p.freeSlot? with
    | none => .error (.pageFull p.id)
    | some slot =>
      .ok ({ p with slots := p.slots.set slot (some { t with record := some ⟨p.id, slot⟩ }) },
        ⟨p.id, slot⟩)
  else .error (.schemaMismatch p.id.table)

/-- Frees the slot of a record.
mirrors `delete_tuple` -/
def delete (p : Page) (record : Option RecordId) : Except Error Page :=
  match record with
  | none => .error .missingRecordId
  | some r =>
    if r.page ≠ p.id then .error (.invalidArgument (.foreignRecord r.page p.id))
    else
      match p.slots[r.slot]? with
      | none => .error (.invalidArgument (.noSuchSlot r.page r.slot))
      | some none => .error (.slotEmpty p.id r.slot)
      | some (some _) => .ok { p with slots := p.slots.set r.slot none }

/-- Whether two slots hold the same row or are both free. -/
def sameSlot : Option Tuple → Option Tuple → Bool
  | none, none => true
  | some a, some b => a.sameRow b
  | _, _ => false

/-- Whether two lists of slots hold the same rows, slot by slot. -/
def sameSlots : List (Option Tuple) → List (Option Tuple) → Bool
  | [], [] => true
  | a :: as, b :: bs => sameSlot a b && sameSlots as bs
  | _, _ => false

/-- Whether two pages are the same page with the same rows in the same slots;
who made them dirty does not matter.
mirrors `eq` -/
def sameContent (a b : Page) : Bool :=
  decide (a.id = b.id) && decide (a.size = b.size) && a.layout.agrees b.layout &&
    sameSlots a.slots b.slots

@[simp] theorem length_slots_empty (id : PageId) (layout : Layout) (size : Nat) :
    (empty id layout size).slots.length = Geometry.slotCount size layout.width := by
  simp [empty]

theorem rows_empty (id : PageId) (layout : Layout) (size : Nat) : (empty id layout size).rows = [] := by
  simp [empty, rows]

theorem length_rows_add_freeCount (p : Page) : p.rows.length + p.freeCount = p.slots.length := by
  unfold rows freeCount
  induction p.slots with
  | nil => rfl
  | cons s rest ih =>
    cases s with
    | none =>
      simp only [List.filterMap_cons, List.countP_cons, Option.isNone_none, if_true, List.length_cons]
      omega
    | some t =>
      simp only [List.filterMap_cons, List.countP_cons, Option.isNone_some, List.length_cons,
        Bool.false_eq_true, if_false]
      omega

theorem freeSlot?_eq_none_iff {p : Page} : p.freeSlot? = none ↔ ∀ s ∈ p.slots, s.isSome := by
  simp [freeSlot?, List.findIdx?_eq_none_iff, Option.isSome_iff_ne_none]

end Page
end PageStore
