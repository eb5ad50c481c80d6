import Mathlib.Algebra.Ring.Nat
import PageStore.Page.Codec

/-!
# The occupancy bitmap of a page

A bitmap has whole bytes, so its last byte may have bits for which there is no
slot. `Tidy` says that it has as many bytes as its slots take and that those
last bits are clear.

Results:
* `tidy_empty`, `Tidy.set`: a new header is tidy, and marking slots keeps it so.
* `isUsed_header`: the header of a page marks exactly the slots that hold a row.
* `decode_encode`: a tidy header is read back, whatever follows it.
* `decode_eq_ok_iff`: when a header is read, and which one.
-/
namespace PageStore.Header

/-- The bits past the last slot start at this one of the last byte. -/
def lastBits (slots : Nat) : Nat := 8 - (Geometry.bitmapWidth slots * 8 - slots)

/-- The bitmap has a bit for every slot, and those for no slot are clear. -/
structure Tidy (h : Header) : Prop where
  length : h.bitmap.length = Geometry.bitmapWidth h.slots
  clear : (h.bitmap.getLastD 0).toNat < 2 ^ lastBits h.slots

theorem hasStrayBits_eq_false {h : Header} (ht : h.Tidy) : hasStrayBits h.slots h.bitmap = false := by
  have := ht.clear
  simp only [hasStrayBits, Bool.and_eq_false_iff, bne_eq_false_iff_eq]
  right
  rw [Nat.shiftRight_eq_div_pow]
  exact Nat.div_eq_of_lt this

theorem tidy_empty (slots : Nat) : (empty slots).Tidy := by
  refine ⟨List.length_replicate, ?_⟩
  have : (List.replicate (Geometry.bitmapWidth slots) (0 : UInt8)).getLastD 0 = 0 := by
    rw [List.getLastD_eq_getLast?, List.getLast?_replicate]
    split <;> rfl
  rw [empty, this]
  exact Nat.two_pow_pos _

theorem toNat_mask (i : Nat) : (mask i).toNat = 2 ^ (i % 8) := by
  have h : ∀ k : Fin 8, ((1 : UInt8) <<< UInt8.ofNat k.val).toNat = 2 ^ k.val := by decide
  exact h ⟨i % 8, Nat.mod_lt _ (by decide)⟩

/-- A slot of the page has its bit before those of no slot. -/
theorem mod_lt_lastBits {i slots : Nat} (h : i < slots) (hl : i / 8 + 1 = Geometry.bitmapWidth slots) :
    i % 8 < lastBits slots := by
  unfold lastBits Geometry.bitmapWidth at *
  omega

theorem Tidy.set {h : Header} (ht : h.Tidy) {i : Nat} (hi : i < h.slots) (b : Bool) :
    (h.set i b).Tidy := by
  refine ⟨by rw [length_bitmap_set]; exact ht.length, ?_⟩
  have hc := ht.clear
  rw [List.getLastD_eq_getLast?, List.getLast?_eq_getElem?] at hc ⊢
  simp only [Header.set, List.length_modify, List.getElem?_modify]
  cases hx : h.bitmap[h.bitmap.length - 1]? with
  | none =>
    rw [hx] at hc
    exact hc
  | some x =>
    rw [hx, Option.getD_some] at hc
    simp only [Option.map_eq_map, Option.map_some, Option.getD_some]
    split
    · next hl =>
      have hpos : h.bitmap.length - 1 < h.bitmap.length := (List.getElem?_eq_some_iff.1 hx).1
      have hbit := mod_lt_lastBits hi (by rw [← ht.length]; omega)
      cases b with
      | true =>
        rw [if_pos rfl, UInt8.toNat_or]
        refine Nat.or_lt_two_pow hc ?_
        rw [toNat_mask]
        exact Nat.pow_lt_pow_right (by decide) hbit
      | false =>
        rw [if_neg (by decide), UInt8.toNat_and]
        exact Nat.lt_of_le_of_lt Nat.and_le_left hc
    · exact hc

theorem decode_encode {h : Header} (ht : h.Tidy) (rest : List UInt8) :
    decode (h.encode ++ rest) h.slots = .ok h := by
  have hl : h.encode.length = Geometry.headerWidth h.slots := by
    rw [encode, List.length_append, Word.length_little, ht.length]
    rfl
  rw [decode, if_neg (by rw [List.length_append, hl]; omega)]
  have hb : ((h.encode ++ rest).drop Geometry.checksumWidth).take (Geometry.bitmapWidth h.slots) =
      h.bitmap := by
    rw [encode, List.append_assoc,
      List.drop_left' (show (Word.little h.checksum).length = Geometry.checksumWidth from rfl),
      List.take_left' ht.length]
  have hw : Word.ofLittle (h.encode ++ rest) = h.checksum := by
    rw [encode, List.append_assoc, Word.ofLittle_little]
  simp only [hb, hw, hasStrayBits_eq_false ht, Bool.false_eq_true, if_false]

/-- The bytes of the bitmap at the start of a page with `slots` slots. -/
def bitmapOf (bytes : List UInt8) (slots : Nat) : List UInt8 :=
  (bytes.drop Geometry.checksumWidth).take (Geometry.bitmapWidth slots)

theorem length_bitmapOf {bytes : List UInt8} {slots : Nat}
    (h : Geometry.headerWidth slots ≤ bytes.length) :
    (bitmapOf bytes slots).length = Geometry.bitmapWidth slots := by
  rw [Geometry.headerWidth] at h
  rw [bitmapOf, List.length_take, List.length_drop]
  omega

/-- The headers that are read. -/
theorem decode_eq_ok_iff {bytes : List UInt8} {slots : Nat} {h : Header} :
    decode bytes slots = .ok h ↔
      Geometry.headerWidth slots ≤ bytes.length ∧ hasStrayBits slots (bitmapOf bytes slots) = false ∧
        h = ⟨Word.ofLittle bytes, slots, bitmapOf bytes slots⟩ := by
  unfold decode
  split
  · next hlen => exact ⟨nofun, fun h => absurd h.1 (Nat.not_le.2 hlen)⟩
  next hlen =>
  dsimp only [bitmapOf]
  split
  · next hs => exact ⟨nofun, fun h => absurd h.2.1 (by simp [hs])⟩
  next hs =>
  constructor
  · intro h
    cases h
    exact ⟨Nat.not_lt.1 hlen, Bool.eq_false_iff.2 hs, rfl⟩
  · rintro ⟨-, -, rfl⟩
    rfl

end PageStore.Header

namespace PageStore.Page

/-- Marking the used ones of some slots decides about exactly those slots. -/
theorem markUsed_spec : ∀ (ss : List (Option Tuple)) (i : Nat) (h : Header), h.Tidy →
    i + ss.length ≤ h.slots →
      (markUsed i ss h).Tidy ∧ (markUsed i ss h).slots = h.slots ∧
        (markUsed i ss h).checksum = h.checksum ∧
        ∀ j, (markUsed i ss h).isUsed j =
          (h.isUsed j || (decide (i ≤ j) && (ss[j - i]?).join.isSome))
  | [], i, h, ht, _ => ⟨ht, rfl, rfl, fun j => by simp [markUsed]⟩
  | s :: ss, i, h, ht, hlen => by
    rw [List.length_cons] at hlen
    have hi : i < h.slots := by omega
    have hbyte : i / 8 < h.bitmap.length := by
      rw [ht.length]
      have := Geometry.le_bitmapWidth h.slots
      omega
    have hnext : ∃ h', (if s.isSome then h.set i true else h) = h' ∧ h'.Tidy ∧ h'.slots = h.slots ∧
        h'.checksum = h.checksum ∧
        ∀ j, h'.isUsed j = (h.isUsed j || (decide (j = i) && s.isSome)) := by
      cases s with
      | none => exact ⟨h, by simp, ht, rfl, rfl, fun j => by simp⟩
      | some t =>
        refine ⟨h.set i true, by simp, ht.set hi true, rfl, rfl, fun j => ?_⟩
        rw [Header.isUsed_set h true hi hbyte]
        by_cases hj : j = i <;> simp [hj]
    obtain ⟨h', he, ht', hs', hc', hu'⟩ := hnext
    obtain ⟨h1, h2, h3, h4⟩ := markUsed_spec ss (i + 1) h' ht' (by rw [hs']; omega)
    rw [markUsed, he]
    refine ⟨h1, h2.trans hs', h3.trans hc', fun j => ?_⟩
    rw [h4, hu']
    by_cases hj : j = i
    · subst hj
      rw [decide_eq_false (Nat.not_succ_le_self j)]
      simp
    · by_cases hlt : i < j
      · have e : j - i = j - (i + 1) + 1 := by omega
        simp [hj, e, show i + 1 ≤ j by omega, show i ≤ j by omega]
      · simp [hj, show ¬i + 1 ≤ j by omega, show ¬i ≤ j by omega]

theorem header_spec (p : Page) :
    p.header.Tidy ∧ p.header.slots = p.slots.length ∧ p.header.checksum = 0 ∧
      ∀ i, p.header.isUsed i = (p.slots[i]?).join.isSome := by
  have hlen : 0 + p.slots.length ≤ (Header.empty p.slots.length).slots := by simp [Header.empty]
  obtain ⟨h1, h2, h3, h4⟩ := markUsed_spec p.slots 0 _ (Header.tidy_empty _) hlen
  refine ⟨h1, h2, h3, fun i => ?_⟩
  have h0 : (Header.empty p.slots.length).isUsed i = false := by
    simp only [Header.isUsed, Header.empty, List.getD_eq_getElem?_getD, List.getElem?_replicate]
    split <;> simp
  rw [header, h4, h0]
  simp

theorem tidy_header (p : Page) : p.header.Tidy := (header_spec p).1

@[simp] theorem slots_header (p : Page) : p.header.slots = p.slots.length := (header_spec p).2.1

/-- The header marks the slots that hold a row. -/
theorem isUsed_header (p : Page) (i : Nat) : p.header.isUsed i = (p.slots[i]?).join.isSome :=
  (header_spec p).2.2.2 i

end PageStore.Page
