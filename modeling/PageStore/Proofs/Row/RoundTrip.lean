import PageStore.Proofs.Text.RoundTrip
import PageStore.Row.Tuple

/-!
# Rows and their bytes

A row is stored column by column, each value in the fixed width of its type.
Only values that fit are stored whole, and only such values are ever read.

Results:
* `Field.decode_stored`: of any text, the part that is stored is read back.
* `Field.decode_encode`: a value that fits is read back, whatever follows it.
* `Field.of_decode`: a value that was read has the type asked for, and fits.
* `Tuple.decodeFields_encode`, `Tuple.of_decodeFields`: the same for rows.
-/
namespace PageStore

namespace Field

theorem stored_of_fits {s : String} (h : (text s).fits = true) : stored s = Utf8.encode s.toList := by
  have h : (Utf8.encode s.toList).length ≤ textWidth := by simpa [fits] using h
  rw [stored, Utf8.fit_of_length_le h]

/-- A text is read back as far as it is stored, whatever follows it. -/
theorem decode_stored (s : String) (rest : List UInt8) :
    decode .text ((text s).encode ++ rest) =
      .ok (.text (String.ofList (Utf8.fit textWidth s.toList))) := by
  have hl : (stored s).length ≤ textWidth := length_stored s
  have hw : (UInt32.ofNat (stored s).length).toNat = (stored s).length := by
    rw [UInt32.toNat_ofNat']
    have : textWidth = 128 := rfl
    omega
  have hlen := length_encode (text s)
  rw [decode, if_neg (by rw [List.length_append, hlen]; exact Nat.not_lt.2 (Nat.le_add_right _ _))]
  simp only [decodeText, encode, List.append_assoc, Word.ofBig_big, hw]
  rw [if_neg (Nat.not_lt.2 hl), List.drop_left' (Word.length_big _), List.take_left' rfl, stored,
    Utf8.decode_encode]

theorem decode_text {s : String} (h : (text s).fits = true) (rest : List UInt8) :
    decode .text ((text s).encode ++ rest) = .ok (.text s) := by
  have h : (Utf8.encode s.toList).length ≤ textWidth := by simpa [fits] using h
  rw [decode_stored, Utf8.fit_of_length_le h, String.ofList_toList]

theorem decode_encode {f : Field} (h : f.fits = true) (rest : List UInt8) :
    decode f.type (f.encode ++ rest) = .ok f := by
  cases f with
  | int n => exact decode_int n rest
  | text s => exact decode_text h rest

/-- A value that was read is of the type asked for, and fits. -/
theorem of_decode {t : FieldType} {bytes : List UInt8} {f : Field} (h : decode t bytes = .ok f) :
    f.type = t ∧ f.fits = true := by
  unfold decode at h
  split at h
  · cases h
  cases t with
  | int => cases h; exact ⟨rfl, rfl⟩
  | text =>
    simp only [decodeText] at h
    split at h
    · cases h
    next hlen =>
    split at h
    · next s hs =>
      cases h
      have hb := congrArg List.length (Utf8.encode_of_decode hs)
      refine ⟨rfl, ?_⟩
      simp only [fits, String.toList_ofList, decide_eq_true_eq, hb, List.length_take]
      omega
    · cases h

end Field

namespace Tuple

theorem decodeFields_encode : ∀ {fields : List Field}, fields.all Field.fits = true →
    ∀ rest : List UInt8,
      decodeFields (fields.map Field.type) (fields.flatMap Field.encode ++ rest) = .ok fields
  | [], _, _ => rfl
  | f :: fields, h, rest => by
    simp only [List.all_cons, Bool.and_eq_true] at h
    rw [List.map_cons, List.flatMap_cons, List.append_assoc, decodeFields,
      Field.decode_encode h.1]
    simp only [List.drop_left' (Field.length_encode f), decodeFields_encode h.2]
    rfl

/-- A row that was read follows the layout, and its values fit. -/
theorem of_decodeFields : ∀ {types : List FieldType} {bytes : List UInt8} {fields : List Field},
    decodeFields types bytes = .ok fields →
      fields.map Field.type = types ∧ fields.all Field.fits = true
  | [], _, _, h => by cases h; exact ⟨rfl, rfl⟩
  | t :: types, bytes, fields, h => by
    rw [decodeFields] at h
    split at h
    · cases h
    next f hf =>
    obtain ⟨fs, hfs, rfl⟩ := except_map_eq_ok h
    obtain ⟨ht, hfit⟩ := Field.of_decode hf
    obtain ⟨hts, hfits⟩ := of_decodeFields hfs
    exact ⟨by rw [List.map_cons, ht, hts], by rw [List.all_cons, hfit, hfits]; rfl⟩

end Tuple
end PageStore
