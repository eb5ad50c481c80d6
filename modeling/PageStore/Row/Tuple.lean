import PageStore.Row.Layout

/-!
# Rows

A row is a list of values that follow a layout. A row that lies in a page
carries its record id. Two rows are the same row when layout and values agree,
wherever they are stored.

Results:
* `make?_eq_some_iff`: a row can be made exactly of values that follow the
  layout and are stored whole.
* `length_encode`: values that follow a layout take the bytes of it.
-/
namespace PageStore

/-- A row: its layout, its values, and where it is stored, if it is. -/
structure Tuple where
  layout : Layout
  fields : List Field
  record : Option RecordId
  deriving DecidableEq, Repr, Inhabited

namespace Tuple

/-- The row of these values; none if they do not follow the layout or one of
them would not be stored whole.
mirrors `new` -/
def make? (layout : Layout) (fields : List Field) : Option Tuple :=
  if fields.map Field.type = layout.types ∧ fields.all Field.fits then
    some ⟨layout, fields, none⟩
  else none

/-- Whether the two are the same row; where they are stored does not matter.
mirrors `eq` -/
def sameRow (a b : Tuple) : Bool := a.layout.agrees b.layout && decide (a.fields = b.fields)

/-- The bytes of all values, one after another.
mirrors `write_to` -/
def encode (t : Tuple) : List UInt8 := t.fields.flatMap Field.encode

/-- Reads one value of each type, one after another. -/
def decodeFields : List FieldType → List UInt8 → Except FieldError (List Field)
  | [], _ => .ok []
  | ty :: types, bytes =>
    match Field.decode ty bytes with
    | .error e => .error e
    | .ok f => (decodeFields types (bytes.drop ty.width)).map (f :: ·)

/-- The row at the front of the bytes.
mirrors `read_from` -/
def decode (layout : Layout) (bytes : List UInt8) : Except FieldError Tuple :=
  (decodeFields layout.types bytes).map (⟨layout, ·, none⟩)

/-- The values as they are shown, with tabs between them. -/
def display (t : Tuple) : String := "\t".intercalate (t.fields.map Field.display)

theorem make?_eq_some_iff {layout : Layout} {fields : List Field} {t : Tuple} :
    make? layout fields = some t ↔
      t = ⟨layout, fields, none⟩ ∧ fields.map Field.type = layout.types ∧ fields.all Field.fits := by
  unfold make?
  split
  · next h => simp [h, eq_comm]
  · next h => simp_all

theorem length_encode {t : Tuple} {layout : Layout} (h : t.fields.map Field.type = layout.types) :
    t.encode.length = layout.width := by
  rw [encode, Layout.width, ← h]
  generalize t.fields = fields
  induction fields with
  | nil => rfl
  | cons f fields ih =>
    rw [List.flatMap_cons, List.length_append, Field.length_encode, ih, List.map_cons, List.foldr_cons]

end Tuple
end PageStore
