import Mathlib.Algebra.Ring.Nat
import PageStore.Proofs.Row.RoundTrip

/-!
# What bytes say about a row

Columns stand one after another, each at the offset that the widths of the
columns before it give. Whatever the bytes of an integer are, they say which
integer it is. Those of a text say which text it is only if the length word is
at most the width of a text and that many bytes after it are UTF-8.

Results:
* `Field.decode_isOk_iff`, `Tuple.decodeFields_isOk_iff`: a value is read
  exactly if the bytes say which it is, and a row exactly if each of its values is.
* `Field.standsAt_of_decode`, `Tuple.standsAt_of_decodeFields`: what is read
  stands in the bytes.
-/
namespace PageStore

namespace Word

/-- The number in the four bytes from `pos` on, the most significant first. -/
def bigAt (bytes : List UInt8) (pos : Nat) : Nat :=
  (bytes.getD pos 0).toNat * 2 ^ 24 + (bytes.getD (pos + 1) 0).toNat * 2 ^ 16 +
    (bytes.getD (pos + 2) 0).toNat * 2 ^ 8 + (bytes.getD (pos + 3) 0).toNat

/-- The number in the four bytes at the front, the least significant first. -/
def littleAt (bytes : List UInt8) : Nat :=
  (bytes.getD 0 0).toNat + (bytes.getD 1 0).toNat * 2 ^ 8 + (bytes.getD 2 0).toNat * 2 ^ 16 +
    (bytes.getD 3 0).toNat * 2 ^ 24

/-- Four bytes are all that a word takes. -/
theorem exists_four {bytes : List UInt8} (h : 4 ≤ bytes.length) :
    ∃ a b c d rest, bytes = a :: b :: c :: d :: rest := by
  match bytes, h with
  | a :: b :: c :: d :: rest, _ => exact ⟨a, b, c, d, rest, rfl⟩

theorem toNat_ofBig {bytes : List UInt8} (h : 4 ≤ bytes.length) :
    (ofBig bytes).toNat = bigAt bytes 0 := by
  obtain ⟨a, b, c, d, rest, rfl⟩ := exists_four h
  have ha := a.toNat_lt
  have hb := b.toNat_lt
  have hc := c.toNat_lt
  have hd := d.toNat_lt
  have hw : value ((a :: b :: c :: d :: rest).take 4).reverse = bigAt (a :: b :: c :: d :: rest) 0 := by
    simp only [List.take_succ_cons, List.take_zero, List.reverse_cons, List.reverse_nil,
      List.nil_append, List.cons_append, value, bigAt, List.getD_cons_zero, List.getD_cons_succ,
      Nat.zero_add]
    omega
  rw [ofBig, UInt32.toNat_ofNat', hw, Nat.mod_eq_of_lt]
  simp only [bigAt, List.getD_cons_zero, List.getD_cons_succ, Nat.zero_add]
  omega

theorem toNat_ofLittle {bytes : List UInt8} (h : 4 ≤ bytes.length) :
    (ofLittle bytes).toNat = littleAt bytes := by
  obtain ⟨a, b, c, d, rest, rfl⟩ := exists_four h
  have ha := a.toNat_lt
  have hb := b.toNat_lt
  have hc := c.toNat_lt
  have hd := d.toNat_lt
  have hw : value ((a :: b :: c :: d :: rest).take 4) = littleAt (a :: b :: c :: d :: rest) := by
    simp only [List.take_succ_cons, List.take_zero, value, littleAt, List.getD_cons_zero,
      List.getD_cons_succ]
    omega
  rw [ofLittle, UInt32.toNat_ofNat', hw, Nat.mod_eq_of_lt]
  simp only [littleAt, List.getD_cons_zero, List.getD_cons_succ]
  omega

theorem bigAt_drop (bytes : List UInt8) (start pos : Nat) :
    bigAt (bytes.drop start) pos = bigAt bytes (start + pos) := by
  simp only [bigAt, List.getD_eq_getElem?_getD, List.getElem?_drop, Nat.add_assoc]

theorem bigAt_take {bytes : List UInt8} {pos width : Nat} (h : pos + 4 ≤ width) :
    bigAt (bytes.take width) pos = bigAt bytes pos := by
  simp only [bigAt, List.getD_eq_getElem?_getD]
  rw [List.getElem?_take_of_lt (by omega), List.getElem?_take_of_lt (by omega),
    List.getElem?_take_of_lt (by omega), List.getElem?_take_of_lt (by omega)]

end Word

/-! ## One column -/

/-- The bytes of the text whose length word starts at `pos`. -/
def payload (bytes : List UInt8) (pos : Nat) : List UInt8 :=
  (bytes.drop (pos + 4)).take (Word.bigAt bytes pos)

theorem payload_drop (bytes : List UInt8) (start pos : Nat) :
    payload (bytes.drop start) pos = payload bytes (start + pos) := by
  simp only [payload, Word.bigAt_drop, List.drop_drop, Nat.add_assoc]

theorem payload_take {bytes : List UInt8} {pos room : Nat} (h : pos + (4 + textWidth) ≤ room)
    (hl : Word.bigAt bytes pos ≤ textWidth) : payload (bytes.take room) pos = payload bytes pos := by
  rw [payload, payload, Word.bigAt_take (by omega), List.drop_take, List.take_take,
    Nat.min_eq_left (by omega)]

namespace FieldType

/-- The bytes from `pos` on can be read as a value of the type. -/
def LegibleAt (bytes : List UInt8) (pos : Nat) : FieldType → Prop
  | .int => True
  | .text => Word.bigAt bytes pos ≤ textWidth ∧ ∃ s : String, payload bytes pos = Utf8.encode s.toList

theorem legibleAt_drop {bytes : List UInt8} {start pos : Nat} {ty : FieldType} :
    ty.LegibleAt (bytes.drop start) pos ↔ ty.LegibleAt bytes (start + pos) := by
  cases ty with
  | int => exact Iff.rfl
  | text => rw [LegibleAt, LegibleAt, Word.bigAt_drop, payload_drop]

/-- Bytes past the end of a column say nothing about it. -/
theorem legibleAt_take {bytes : List UInt8} {pos room : Nat} {ty : FieldType}
    (h : pos + ty.width ≤ room) : ty.LegibleAt (bytes.take room) pos ↔ ty.LegibleAt bytes pos := by
  cases ty with
  | int => exact Iff.rfl
  | text =>
    rw [width] at h
    rw [LegibleAt, LegibleAt, Word.bigAt_take (by omega)]
    exact and_congr_right fun hl => by rw [payload_take h hl]

end FieldType

namespace Field

/-- The bytes from `pos` on are those of the value. -/
def StandsAt (bytes : List UInt8) (pos : Nat) : Field → Prop
  | .int n => n.toUInt32.toNat = Word.bigAt bytes pos
  | .text s => Word.bigAt bytes pos ≤ textWidth ∧ payload bytes pos = Utf8.encode s.toList

theorem standsAt_drop {bytes : List UInt8} {start pos : Nat} {f : Field} :
    f.StandsAt (bytes.drop start) pos ↔ f.StandsAt bytes (start + pos) := by
  cases f with
  | int n => rw [StandsAt, StandsAt, Word.bigAt_drop]
  | text s => rw [StandsAt, StandsAt, Word.bigAt_drop, payload_drop]

theorem standsAt_take {bytes : List UInt8} {pos room : Nat} {f : Field}
    (h : pos + f.type.width ≤ room) : f.StandsAt (bytes.take room) pos ↔ f.StandsAt bytes pos := by
  cases f with
  | int n => rw [StandsAt, StandsAt, Word.bigAt_take h]
  | text s =>
    rw [type, FieldType.width] at h
    rw [StandsAt, StandsAt, Word.bigAt_take (by omega)]
    exact and_congr_right fun hl => by rw [payload_take h hl]

/-- A value that was read stands at the front of the bytes. -/
theorem standsAt_of_decode {ty : FieldType} {bytes : List UInt8} {f : Field}
    (h : decode ty bytes = .ok f) : f.StandsAt bytes 0 := by
  unfold decode at h
  split at h
  · cases h
  next hlen =>
  cases ty with
  | int =>
    cases h
    exact Word.toNat_ofBig (by simpa [FieldType.width] using hlen)
  | text =>
    rw [FieldType.width] at hlen
    have hword : (Word.ofBig bytes).toNat = Word.bigAt bytes 0 := Word.toNat_ofBig (by omega)
    simp only [decodeText, hword] at h
    split at h
    · cases h
    next hl =>
    split at h
    · next s hs =>
      cases h
      refine ⟨by omega, ?_⟩
      rw [String.toList_ofList]
      exact (Utf8.encode_of_decode hs).symm
    · cases h

theorem decode_isOk_iff {ty : FieldType} {bytes : List UInt8} (hlen : ty.width ≤ bytes.length) :
    (∃ f, decode ty bytes = .ok f) ↔ ty.LegibleAt bytes 0 := by
  constructor
  · rintro ⟨f, hf⟩
    have hs := standsAt_of_decode hf
    have ht := (of_decode hf).1
    subst ht
    cases f with
    | int n => trivial
    | text s => exact ⟨hs.1, s, hs.2⟩
  · intro h
    unfold decode
    rw [if_neg (by omega)]
    cases ty with
    | int => exact ⟨_, rfl⟩
    | text =>
      obtain ⟨hl, s, hs⟩ := h
      rw [FieldType.width] at hlen
      have hword : (Word.ofBig bytes).toNat = Word.bigAt bytes 0 := Word.toNat_ofBig (by omega)
      refine ⟨.text s, ?_⟩
      rw [payload, Nat.zero_add] at hs
      simp only [decodeText, hword, if_neg (Nat.not_lt.2 hl), hs, Utf8.decode_encode,
        String.ofList_toList]

end Field

/-! ## All columns -/

namespace Layout

/-- Where the column with this number starts, if the columns have these types. -/
def offset (types : List FieldType) (column : Nat) : Nat :=
  ((types.take column).map FieldType.width).sum

/-- Bytes that columns of these types take. -/
def widthOf (types : List FieldType) : Nat := types.foldr (fun ty n => ty.width + n) 0

@[simp] theorem offset_zero (types : List FieldType) : offset types 0 = 0 := rfl

@[simp] theorem offset_cons_succ (ty : FieldType) (types : List FieldType) (column : Nat) :
    offset (ty :: types) (column + 1) = ty.width + offset types column := rfl

@[simp] theorem widthOf_cons (ty : FieldType) (types : List FieldType) :
    widthOf (ty :: types) = ty.width + widthOf types := rfl

theorem width_eq (l : Layout) : l.width = widthOf l.types := rfl

theorem offset_add_widthOf_le : ∀ {types : List FieldType} {column : Nat} {ty : FieldType},
    types[column]? = some ty → offset types column + ty.width ≤ widthOf types
  | [], _, _, h => by simp at h
  | ty :: types, 0, _, h => by
    cases h
    simp
  | ty :: types, column + 1, _, h => by
    have : offset types column + _ ≤ widthOf types := offset_add_widthOf_le h
    simp only [offset_cons_succ, widthOf_cons]
    omega

/-- Every column ends within the row. -/
theorem offset_add_le {l : Layout} {column : Nat} {ty : FieldType} (h : l.types[column]? = some ty) :
    offset l.types column + ty.width ≤ l.width := offset_add_widthOf_le h

end Layout

namespace Tuple

/-- The values that were read stand one after another. -/
theorem standsAt_of_decodeFields : ∀ {types : List FieldType} {bytes : List UInt8} {fields : List Field},
    decodeFields types bytes = .ok fields →
      ∀ (column : Nat) (f : Field), fields[column]? = some f →
        f.StandsAt bytes (Layout.offset types column)
  | [], _, _, h, column, f, hf => by
    cases h
    simp at hf
  | ty :: types, bytes, fields, h, column, f, hf => by
    rw [decodeFields] at h
    split at h
    · cases h
    next g hg =>
    obtain ⟨gs, hgs, rfl⟩ := except_map_eq_ok h
    cases column with
    | zero =>
      cases hf
      exact Field.standsAt_of_decode hg
    | succ column =>
      have := standsAt_of_decodeFields hgs column f hf
      rwa [Field.standsAt_drop] at this

/-- The columns of a row can be read exactly if each of them can. -/
theorem decodeFields_isOk_iff : ∀ {types : List FieldType} {bytes : List UInt8},
    Layout.widthOf types ≤ bytes.length →
      ((∃ fields, decodeFields types bytes = .ok fields) ↔
        ∀ (column : Nat) (ty : FieldType), types[column]? = some ty →
          ty.LegibleAt bytes (Layout.offset types column))
  | [], _, _ => ⟨fun _ column ty h => by simp at h, fun _ => ⟨[], rfl⟩⟩
  | ty :: types, bytes, hlen => by
    rw [Layout.widthOf_cons] at hlen
    have hfirst : (∃ f, Field.decode ty bytes = .ok f) ↔ ty.LegibleAt bytes 0 :=
      Field.decode_isOk_iff (by omega)
    have hlen : Layout.widthOf types ≤ (bytes.drop ty.width).length := by
      rw [List.length_drop]
      omega
    have hrest := decodeFields_isOk_iff hlen
    simp only [FieldType.legibleAt_drop] at hrest
    constructor
    · rintro ⟨fields, h⟩ column uy hu
      rw [decodeFields] at h
      split at h
      · cases h
      next f hf =>
      obtain ⟨fs, hfs, -⟩ := except_map_eq_ok h
      cases column with
      | zero =>
        cases hu
        exact hfirst.1 ⟨f, hf⟩
      | succ column => exact hrest.1 ⟨fs, hfs⟩ column uy hu
    · intro h
      obtain ⟨f, hf⟩ := hfirst.2 (h 0 ty rfl)
      obtain ⟨fs, hfs⟩ := hrest.2 fun column uy hu => h (column + 1) uy hu
      exact ⟨f :: fs, by rw [decodeFields, hf]; simp only [hfs]; rfl⟩

end Tuple
end PageStore
