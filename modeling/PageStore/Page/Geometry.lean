/-!
# How many rows fit in a page

A page starts with a checksum of four bytes and an occupancy bitmap of one bit
for each slot, and the slots follow. Every slot costs its row's width in bytes
and one bit.

Results:
* `bitmapWidth_le`, `le_bitmapWidth`: the bitmap has a bit for every slot and
  less than a byte to spare.
* `headerWidth_add_le`: header and slots fit in the page.
-/
namespace PageStore.Geometry

/-- Bytes of the checksum in front of the bitmap. -/
def checksumWidth : Nat := 4

/-- Slots of `width` bytes that fit in a page.
mirrors `num_slots` -/
def slotCount (pageSize width : Nat) : Nat := (pageSize - checksumWidth) * 8 / (width * 8 + 1)

/-- Bytes of the bitmap of `slots` bits.
mirrors `bitmap_len` -/
def bitmapWidth (slots : Nat) : Nat := (slots + 7) / 8

/-- Bytes in front of the first slot.
mirrors `size` -/
def headerWidth (slots : Nat) : Nat := checksumWidth + bitmapWidth slots

theorem le_bitmapWidth (slots : Nat) : slots ≤ bitmapWidth slots * 8 := by
  unfold bitmapWidth; omega

theorem bitmapWidth_le (slots : Nat) : bitmapWidth slots * 8 < slots + 8 := by
  unfold bitmapWidth; omega

theorem headerWidth_add_le {pageSize : Nat} (width : Nat) (h : checksumWidth ≤ pageSize) :
    headerWidth (slotCount pageSize width) + slotCount pageSize width * width ≤ pageSize := by
  have hs : slotCount pageSize width * (width * 8 + 1) ≤ (pageSize - checksumWidth) * 8 :=
    Nat.div_mul_le_self _ _
  have hb := bitmapWidth_le (slotCount pageSize width)
  generalize slotCount pageSize width = n at *
  have e : n * (width * 8 + 1) = n * width * 8 + n := by rw [Nat.mul_add, Nat.mul_one, Nat.mul_assoc]
  rw [e] at hs
  unfold headerWidth
  generalize n * width = m at *
  omega

end PageStore.Geometry
