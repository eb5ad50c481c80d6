import PageStore.Row.Field

/-!
# Layouts of rows

A layout is the list of a table's columns, each with a type and perhaps a
name. Two layouts agree when their types agree place by place; names are for
readers only.

Results:
* `agrees_iff`: agreement is equality of the lists of types.
-/
namespace PageStore

/-- A column: its type, and its name if it has one. -/
structure Column where
  type : FieldType
  name : Option String
  deriving DecidableEq, Repr, Inhabited

/-- The columns of a row, in order. -/
structure Layout where
  columns : List Column
  deriving DecidableEq, Repr, Inhabited

namespace Layout

/-- Columns without names. -/
def ofTypes (types : List FieldType) : Layout := ⟨types.map (⟨·, none⟩)⟩

def types (l : Layout) : List FieldType := l.columns.map Column.type

/-- Bytes that a row takes.
mirrors `byte_len` -/
def width (l : Layout) : Nat := l.types.foldr (fun ty n => ty.width + n) 0

/-- Whether rows of the one layout are rows of the other.
mirrors `eq` -/
def agrees (a b : Layout) : Bool := decide (a.types = b.types)

/-- The place of the first column called `name`.
mirrors `index_of` -/
def indexOf? (l : Layout) (name : String) : Option Nat :=
  l.columns.findIdx? fun c => c.name == some name

/-- The columns as they are shown: type and name, `null` for a column without one. -/
def display (l : Layout) : String :=
  ", ".intercalate (l.columns.map fun c => c.type.name ++ "(" ++ c.name.getD "null" ++ ")")

theorem agrees_iff {a b : Layout} : a.agrees b = true ↔ a.types = b.types := by
  simp [agrees]

@[simp] theorem types_ofTypes (types : List FieldType) : (ofTypes types).types = types := by
  simp [ofTypes, Layout.types, Function.comp_def]

end Layout
end PageStore
