import PageStore.Proofs.Page.Reading

/-!
# A bitmap is a set of slots

Bits are kept in whole bytes, so the last byte of a bitmap may have bits that stand
for no slot. Counting the used slots counts all bits of all bytes, and a header is
read again only if the bits for no slot are clear. Both are right because no header
in use ever has such a bit set: a new one has none, one that was read was checked
for it, and a slot that is marked is a slot of the page.

Results:
* `InUse.tidy`: the bits for no slot are clear, whatever was marked.
* `usedCount_eq`: then the number of bits set is the number of used slots.
* `writeOver_spec`: a header that was written over the beginning of a page is read
  from it again, and the rest of the page is as it was.
* `bitmap_is_set`: all of this, of every header in use.
-/
namespace PageStore.Header

variable {h : Header}

/-- Headers in use: new or read from a page, after any marks on slots of the page, and
with any checksums put in. -/
inductive InUse : Header → Prop
  | empty (slots : Nat) : InUse (empty slots)
  | read {bytes : List UInt8} {slots : Nat} {h : Header} (hd : decode bytes slots = .ok h) : InUse h
  | marked {h h' : Header} {i : Nat} {used : Bool} (hh : InUse h) (hm : h.mark i used = .ok h') :
      InUse h'
  | checksummed {h : Header} (hh : InUse h) (sum : UInt32) : InUse { h with checksum := sum }

/-- Bit `j` of a bitmap. -/
def bit (bitmap : List UInt8) (j : Nat) : Bool := bitmap.getD (j / 8) 0 &&& mask j != 0

theorem isUsed_eq_bit (h : Header) (j : Nat) :
    h.isUsed j = (decide (j < h.slots) && bit h.bitmap j) := rfl

/-! ## Bits for no slot -/

theorem mark_eq_ok_iff {i : Nat} {used : Bool} {h' : Header} :
    h.mark i used = .ok h' ↔ i < h.slots ∧ h' = h.set i used := by
  unfold mark
  split
  · next hi => simp [hi, eq_comm]
  · next hi => simp [hi]

theorem tidy_of_decode {bytes : List UInt8} {slots : Nat} (hd : decode bytes slots = .ok h) : h.Tidy := by
  obtain ⟨hlen, hstray, rfl⟩ := decode_eq_ok_iff.1 hd
  refine ⟨length_bitmapOf hlen, ?_⟩
  simp only [hasStrayBits, Bool.and_eq_false_iff, decide_eq_false_iff_not, bne_eq_false_iff_eq] at hstray
  dsimp only [lastBits]
  rcases hstray with htail | hshift
  · rw [Nat.eq_zero_of_not_pos htail]
    exact ((bitmapOf bytes slots).getLastD 0).toNat_lt
  · rw [Nat.shiftRight_eq_div_pow] at hshift
    exact (Nat.div_eq_zero_iff_lt (Nat.two_pow_pos _)).1 hshift

theorem InUse.tidy (hh : h.InUse) : h.Tidy := by
  induction hh with
  | empty slots => exact tidy_empty slots
  | read hd => exact tidy_of_decode hd
  | marked _ hm ih =>
    obtain ⟨hi, rfl⟩ := mark_eq_ok_iff.1 hm
    exact ih.set hi _
  | checksummed _ _ ih => exact ⟨ih.length, ih.clear⟩

theorem Tidy.byte_lt (ht : h.Tidy) {i : Nat} (hi : i < h.slots) : i / 8 < h.bitmap.length := by
  have := Geometry.le_bitmapWidth h.slots
  have := ht.length
  omega

theorem Tidy.bit_clear (ht : h.Tidy) {j : Nat} (hj : h.slots ≤ j) : bit h.bitmap j = false := by
  rw [bit, and_mask_ne_zero]
  by_cases hbyte : j / 8 < h.bitmap.length
  · have hlow := Geometry.le_bitmapWidth h.slots
    have hhigh := Geometry.bitmapWidth_le h.slots
    have hlen := ht.length
    -- only the last byte has bits past the last slot
    have hlast : h.bitmap.length - 1 = j / 8 := by omega
    have hplace : lastBits h.slots ≤ j % 8 := by
      unfold lastBits
      omega
    have hclear := ht.clear
    rw [List.getLastD_eq_getLast?, List.getLast?_eq_getElem?, hlast,
      ← List.getD_eq_getElem?_getD] at hclear
    exact lt_two_pow_iff.1 hclear (j % 8) hplace (Nat.mod_lt _ (by decide))
  · rw [List.getD_eq_getElem?_getD, List.getElem?_eq_none (Nat.not_lt.1 hbyte)]
    exact Nat.zero_testBit _

/-! ## Counting -/

theorem bit_cons_of_lt (b : UInt8) (rest : List UInt8) {j : Nat} (hj : j < 8) :
    bit (b :: rest) j = (b &&& mask j != 0) := by
  rw [bit, Nat.div_eq_of_lt hj]
  rfl

theorem bit_cons_add (b : UInt8) (rest : List UInt8) (j : Nat) :
    bit (b :: rest) (8 + j) = bit rest j := by
  have hbyte : (8 + j) / 8 = j / 8 + 1 := by omega
  have hplace : mask (8 + j) = mask j := by
    rw [mask, Nat.add_mod_left]
    rfl
  rw [bit, hbyte, hplace]
  rfl

/-- Byte by byte, all bits of the bitmap are counted. -/
theorem sum_popCount : ∀ bitmap : List UInt8,
    bitmap.foldr (fun b n => popCount b + n) 0 = (List.range (8 * bitmap.length)).countP (bit bitmap)
  | [] => rfl
  | b :: rest => by
    have hfirst : popCount b = (List.range 8).countP (bit (b :: rest)) := by
      rw [popCount, ← List.countP_eq_length_filter]
      exact List.countP_congr fun j hj => by rw [bit_cons_of_lt b rest (List.mem_range.1 hj)]
    have hrest : bit (b :: rest) ∘ (8 + ·) = bit rest := funext fun j => bit_cons_add b rest j
    rw [List.foldr_cons, sum_popCount rest, List.length_cons, Nat.mul_succ, Nat.add_comm _ 8,
      List.range_add,
      List.countP_append, List.countP_map, hrest, hfirst]

theorem usedCount_eq (ht : h.Tidy) : h.usedCount = h.used.length := by
  have hbits : 8 * h.bitmap.length = h.slots + (8 * h.bitmap.length - h.slots) := by
    have := Geometry.le_bitmapWidth h.slots
    have := ht.length
    omega
  have hslots : (List.range h.slots).countP (bit h.bitmap) = h.used.length := by
    rw [used, ← List.countP_eq_length_filter]
    refine List.countP_congr fun j hj => ?_
    rw [isUsed_eq_bit, decide_eq_true (List.mem_range.1 hj), Bool.true_and]
  have hspare :
      (List.range (8 * h.bitmap.length - h.slots)).countP (bit h.bitmap ∘ (h.slots + ·)) = 0 := by
    refine List.countP_eq_zero.2 fun j _ => ?_
    have hclear : bit h.bitmap (h.slots + j) = false := ht.bit_clear (Nat.le_add_right _ _)
    simp [hclear]
  rw [usedCount, sum_popCount, hbits, List.range_add, List.countP_append, List.countP_map, hspare, hslots,
    Nat.add_zero]

/-! ## Writing and reading -/

theorem length_encode_of_tidy (ht : h.Tidy) : h.encode.length = Geometry.headerWidth h.slots := by
  rw [encode, List.length_append, Word.length_little, ht.length]
  rfl

theorem writeOver_spec (ht : h.Tidy) {page : List UInt8}
    (hlen : Geometry.headerWidth h.slots ≤ page.length) :
    ∃ out, h.writeOver page = .ok out ∧ out.length = page.length ∧
      out.drop (Geometry.headerWidth h.slots) = page.drop (Geometry.headerWidth h.slots) ∧
      decode out h.slots = .ok h := by
  have hwidth := length_encode_of_tidy ht
  refine ⟨h.encode ++ page.drop h.encode.length, ?_, ?_, ?_, decode_encode ht _⟩
  · rw [writeOver, if_neg (Nat.not_lt.2 hlen)]
  · rw [List.length_append, List.length_drop, hwidth]
    omega
  · rw [List.drop_left' hwidth, hwidth]

/-- Of every header in use: a mark on a slot of the page decides about that slot and
leaves every other as it was; slots that the page does not have are not used; as many
bits are counted as there are used slots; and a page that is long enough for the header
keeps all bytes behind it when it is written, and then the same header is read from it. -/
theorem bitmap_is_set (hh : h.InUse) :
    (∀ i used, i < h.slots → ∃ h', h.mark i used = .ok h' ∧ h'.slots = h.slots ∧
      h'.checksum = h.checksum ∧ ∀ j, h'.isUsed j = if j = i then used else h.isUsed j) ∧
    (∀ j, h.slots ≤ j → h.isUsed j = false) ∧
    h.usedCount = ((List.range h.slots).filter h.isUsed).length ∧
    ∀ page : List UInt8, Geometry.headerWidth h.slots ≤ page.length →
      ∃ out, h.writeOver page = .ok out ∧ out.length = page.length ∧
        (∀ k, Geometry.headerWidth h.slots ≤ k → out[k]? = page[k]?) ∧
        decode out h.slots = .ok h := by
  have ht := hh.tidy
  refine ⟨fun i used hi => ?_, fun j hj => ?_, usedCount_eq ht, fun page hlen => ?_⟩
  · exact ⟨h.set i used, mark_eq_ok_iff.2 ⟨hi, rfl⟩, rfl, rfl, isUsed_set h used hi (ht.byte_lt hi)⟩
  · rw [isUsed_eq_bit, decide_eq_false (Nat.not_lt.2 hj), Bool.false_and]
  · obtain ⟨out, hwrite, hout, hbehind, hread⟩ := writeOver_spec ht hlen
    refine ⟨out, hwrite, hout, fun k hk => ?_, hread⟩
    have hplace : k = Geometry.headerWidth h.slots + (k - Geometry.headerWidth h.slots) := by omega
    rw [hplace, ← List.getElem?_drop, hbehind, List.getElem?_drop]

/-- A header that was read with the slots 3 and 17 used. -/
def readHeader : Header := ⟨0, 20, [8, 0, 2]⟩

/-- It was given a checksum, and its last slot is used, too. -/
def sampleHeader : Header := ⟨0xDEADBEEF, 20, [8, 0, 10]⟩

theorem bitmap_is_set_sampleHeader :
    sampleHeader.InUse ∧ sampleHeader.usedCount = 3 ∧ sampleHeader.isUsed 20 = false ∧
      (∃ h, sampleHeader.mark 3 false = .ok h ∧ h.isUsed 3 = false ∧ h.isUsed 19 = true) ∧
      ∃ out, sampleHeader.writeOver (List.replicate 64 255) = .ok out ∧ out[7]? = some 255 ∧
        decode out 20 = .ok sampleHeader := by
  have hread : decode [0, 0, 0, 0, 8, 0, 2] 20 = .ok readHeader := by decide
  have hmark : readHeader.mark 19 true = .ok { sampleHeader with checksum := 0 } := by decide
  have huse : sampleHeader.InUse := .checksummed (.marked (.read hread) hmark) 0xDEADBEEF
  obtain ⟨hset, houtside, hcount, hwrite⟩ := bitmap_is_set huse
  obtain ⟨h, hm, -, -, hused⟩ := hset 3 false (by decide)
  obtain ⟨out, hout, -, hbehind, hdecode⟩ := hwrite (List.replicate 64 255) (by decide)
  refine ⟨huse, hcount.trans (by decide), houtside 20 (Nat.le_refl 20), ⟨h, hm, ?_, ?_⟩, out, hout, ?_,
    hdecode⟩
  · rw [hused, if_pos rfl]
  · rw [hused, if_neg (by decide)]
    decide
  · rw [hbehind 7 (by decide)]
    rfl

end PageStore.Header
