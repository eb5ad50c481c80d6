import PageStore.Page.Geometry
import PageStore.Bytes.Checksum
import PageStore.Bytes.Words
import PageStore.Error

/-!
# Page headers

A header holds the checksum of the rest of its page and one occupancy bit for
each slot: slot `i` is bit `i % 8` of byte `i / 8`, counted from the lowest. A
checksum of zero stands for a page that was never checksummed.

Results:
* `isUsed_set`: marking a slot decides about that slot and leaves every other
  as it was.
* `length_bitmap_set`, `slots_set`: it changes nothing about the header's size.
-/
namespace PageStore

/-- The checksum and occupancy bits at the start of a page. -/
structure Header where
  checksum : UInt32
  slots : Nat
  bitmap : List UInt8
  deriving DecidableEq, Repr, Inhabited

namespace Header

/-- The bit of slot `i` in its byte. -/
def mask (i : Nat) : UInt8 := 1 <<< UInt8.ofNat (i % 8)

/-- A header without used slots. -/
def empty (slots : Nat) : Header := ⟨0, slots, List.replicate (Geometry.bitmapWidth slots) 0⟩

/-- mirrors `is_used` -/
def isUsed (h : Header) (slot : Nat) : Bool :=
  decide (slot < h.slots) && (h.bitmap.getD (slot / 8) 0 &&& mask slot != 0)

/-- Marks a slot as used or free. -/
def set (h : Header) (slot : Nat) (used : Bool) : Header :=
  { h with bitmap := h.bitmap.modify (slot / 8) fun b =>
      if used then b ||| mask slot else b &&& ~~~mask slot }

/-- Marks a slot of the page as used or free; slots that the page does not have are refused.
mirrors `set_used` -/
def mark (h : Header) (slot : Nat) (used : Bool) : Except Misuse Header :=
  if slot < h.slots then .ok (h.set slot used) else .error (.slotOutOfRange slot)

/-- The used slots, ascending. -/
def used (h : Header) : List Nat := (List.range h.slots).filter h.isUsed

/-- Bits set in a byte. -/
def popCount (b : UInt8) : Nat := ((List.range 8).filter fun i => b &&& mask i != 0).length

/-- Bits set in the bitmap.
mirrors `used_count` -/
def usedCount (h : Header) : Nat := h.bitmap.foldr (fun b n => popCount b + n) 0

/-- The bytes of the header. -/
def encode (h : Header) : List UInt8 := Word.little h.checksum ++ h.bitmap

/-- The bytes after the header was written over their beginning.
mirrors `write_to` -/
def writeOver (h : Header) (bytes : List UInt8) : Except Misuse (List UInt8) :=
  if bytes.length < Geometry.headerWidth h.slots then .error .headerOverflow
  else .ok (h.encode ++ bytes.drop h.encode.length)

/-- Whether a bitmap of `slots` bits has a bit set past the last of them. -/
def hasStrayBits (slots : Nat) (bitmap : List UInt8) : Bool :=
  decide (0 < Geometry.bitmapWidth slots * 8 - slots) &&
    ((bitmap.getLastD 0).toNat >>> (8 - (Geometry.bitmapWidth slots * 8 - slots)) != 0)

/-- The header at the start of a page with `slots` slots.
mirrors `from_bytes` -/
def decode (bytes : List UInt8) (slots : Nat) : Except HeaderError Header :=
  if bytes.length < Geometry.headerWidth slots then
    .error (.truncated (Geometry.headerWidth slots) bytes.length)
  else
    let bitmap := (bytes.drop Geometry.checksumWidth).take (Geometry.bitmapWidth slots)
    if hasStrayBits slots bitmap then .error (.strayBits slots)
    else .ok ⟨Word.ofLittle bytes, slots, bitmap⟩

/-- The checksum of everything in a page after its checksum field. -/
def checksumOf (page : List UInt8) : UInt32 :=
  Checksum.crc32 (page.drop Geometry.checksumWidth)

/-- The checksum of a page; a page without a checksum field is refused.
mirrors `compute_checksum` -/
def checksumOf? (page : List UInt8) : Except Misuse UInt32 :=
  if page.length < Geometry.checksumWidth then .error .noChecksumField else .ok (checksumOf page)

/-- Whether the page is the one that was checksummed, as far as the checksum tells. -/
def verifies (h : Header) (page : List UInt8) : Bool :=
  h.checksum == 0 || h.checksum == checksumOf page

/-- The check of a page; it is never made for a checksum of zero.
mirrors `verify_checksum` -/
def verifies? (h : Header) (page : List UInt8) : Except Misuse Bool :=
  if h.checksum = 0 then .ok true else (checksumOf? page).map (h.checksum == ·)

/-! ## One slot at a time -/

theorem mask_ne_zero (i : Nat) : mask i ≠ 0 := by
  have h : ∀ k : Fin 8, (1 : UInt8) <<< UInt8.ofNat k.val ≠ 0 := by decide
  exact h ⟨i % 8, Nat.mod_lt _ (by decide)⟩

theorem mask_and_mask {i j : Nat} (h : i % 8 ≠ j % 8) : mask i &&& mask j = 0 := by
  have hk : ∀ k l : Fin 8, k ≠ l →
      (1 : UInt8) <<< UInt8.ofNat k.val &&& (1 : UInt8) <<< UInt8.ofNat l.val = 0 := by decide
  exact hk ⟨i % 8, Nat.mod_lt _ (by decide)⟩ ⟨j % 8, Nat.mod_lt _ (by decide)⟩ (by simpa using h)

@[simp] theorem slots_set (h : Header) (i : Nat) (b : Bool) : (h.set i b).slots = h.slots := rfl

@[simp] theorem checksum_set (h : Header) (i : Nat) (b : Bool) :
    (h.set i b).checksum = h.checksum := rfl

@[simp] theorem length_bitmap_set (h : Header) (i : Nat) (b : Bool) :
    (h.set i b).bitmap.length = h.bitmap.length := by
  simp [set]

/-- A bit that was set is set. -/
theorem or_and_self (x m : UInt8) : (x ||| m) &&& m = m := by
  apply UInt8.toBitVec_inj.mp
  ext i hi
  simp only [UInt8.toBitVec_and, UInt8.toBitVec_or, BitVec.getElem_and, BitVec.getElem_or]
  cases m.toBitVec[i] <;> simp

/-- A bit that was cleared is clear. -/
theorem not_and_self (x m : UInt8) : (x &&& ~~~m) &&& m = 0 := by
  apply UInt8.toBitVec_inj.mp
  ext i hi
  simp

/-- Setting a bit changes no other. -/
theorem or_and_of_disjoint (x m n : UInt8) (h : m &&& n = 0) : (x ||| m) &&& n = x &&& n := by
  have h' := congrArg UInt8.toBitVec h
  apply UInt8.toBitVec_inj.mp
  ext i hi
  have := congrArg (fun v => v.getLsbD i) h'
  simp at this ⊢
  rcases hn : n.toBitVec[i] <;> simp_all

/-- Clearing a bit changes no other. -/
theorem not_and_of_disjoint (x m n : UInt8) (h : m &&& n = 0) : (x &&& ~~~m) &&& n = x &&& n := by
  have h' := congrArg UInt8.toBitVec h
  apply UInt8.toBitVec_inj.mp
  ext i hi
  have := congrArg (fun v => v.getLsbD i) h'
  simp at this ⊢
  rcases hn : n.toBitVec[i] <;> simp_all

/-- Marking a slot decides about that slot and leaves every other as it was. -/
theorem isUsed_set (h : Header) {i : Nat} (b : Bool) (hi : i < h.slots)
    (hl : i / 8 < h.bitmap.length) (j : Nat) :
    (h.set i b).isUsed j = if j = i then b else h.isUsed j := by
  unfold isUsed set
  by_cases hj : j = i
  · subst hj
    simp only [List.getD_eq_getElem?_getD, List.getElem?_modify, if_true, hi, decide_true, Bool.true_and]
    rw [List.getElem?_eq_getElem hl]
    cases b
    · simp [not_and_self]
    · simp [or_and_self, mask_ne_zero]
  · simp only [List.getD_eq_getElem?_getD, List.getElem?_modify, hj, if_false]
    by_cases hd : i / 8 = j / 8
    · have hm : i % 8 ≠ j % 8 := by omega
      rw [← hd, List.getElem?_eq_getElem hl]
      cases b
      · simp [not_and_of_disjoint _ _ _ (mask_and_mask hm)]
      · simp [or_and_of_disjoint _ _ _ (mask_and_mask hm)]
    · simp [hd]

end Header
end PageStore
