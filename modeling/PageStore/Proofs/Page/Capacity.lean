import PageStore.Page.Geometry

/-!
# A page has as many slots as fit

A slot costs eight bits for each byte of its row and one bit of the bitmap, and a
page gets as many slots as its bits pay for, rounded down. The bitmap is rounded up
to whole bytes, so header and slots may take up to seven bits more than was paid.
That never makes them too long: rows take whole bytes and the page has whole bytes,
so rounding the bitmap up stays within the byte that the page has anyway.

Results:
* `fits_iff_bits`: header and slots fit exactly if the bits of the page pay for them.
* `fits_iff`: any number of slots fits exactly up to the number that a page has.
* `slotCount_tight`: so the slots of a page fit, and one more would not.
-/
namespace PageStore.Geometry

variable {pageSize : Nat} (width n : Nat)

/-- Rounding the bitmap up to bytes decides about no slot. -/
theorem fits_iff_bits (h : checksumWidth ≤ pageSize) :
    headerWidth n + n * width ≤ pageSize ↔ n * (width * 8 + 1) ≤ (pageSize - checksumWidth) * 8 := by
  have hlow := le_bitmapWidth n
  have hhigh := bitmapWidth_le n
  have hcost : n * (width * 8 + 1) = n * width * 8 + n := by
    rw [Nat.mul_add, Nat.mul_one, Nat.mul_assoc]
  rw [hcost, headerWidth]
  generalize n * width = rows at *
  omega

theorem fits_iff (h : checksumWidth ≤ pageSize) :
    headerWidth n + n * width ≤ pageSize ↔ n ≤ slotCount pageSize width := by
  have hpos : 0 < width * 8 + 1 := Nat.succ_pos _
  rw [fits_iff_bits width n h, slotCount, Nat.le_div_iff_mul_le hpos]

/-- Header and slots fit in a page that has room for a checksum, and with one slot
more they would not. -/
theorem slotCount_tight (h : 4 ≤ pageSize) :
    headerWidth (slotCount pageSize width) + slotCount pageSize width * width ≤ pageSize ∧
      pageSize < headerWidth (slotCount pageSize width + 1) +
        (slotCount pageSize width + 1) * width := by
  constructor
  · exact (fits_iff width _ h).2 (Nat.le_refl _)
  · have hmore : ¬slotCount pageSize width + 1 ≤ slotCount pageSize width := Nat.not_succ_le_self _
    exact Nat.not_le.1 fun hfits => hmore ((fits_iff width _ h).1 hfits)

/-- A page of 4096 bytes has 30 slots for rows of one text, and almost the bits of another are
left over. -/
theorem slotCount_tight_texts :
    4 ≤ 4096 ∧ slotCount 4096 132 = 30 ∧ headerWidth 30 + 30 * 132 ≤ 4096 ∧
      4096 < headerWidth 31 + 31 * 132 := by
  have hsize : 4 ≤ 4096 := by decide
  have hcount : slotCount 4096 132 = 30 := rfl
  have htight := slotCount_tight 132 hsize
  rw [hcount] at htight
  exact ⟨hsize, hcount, htight⟩

end PageStore.Geometry
