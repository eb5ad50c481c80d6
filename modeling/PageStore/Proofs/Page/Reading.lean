import Mathlib.Data.Nat.Bitwise
import PageStore.Proofs.Page.Guarded
import PageStore.Proofs.Page.Sound
import PageStore.Proofs.Row.Reading

/-!
# Which bytes are a page

Bytes are `Legible` for a layout and a page size if they have that size, hold
the header, mark no slot that the page does not have, and hold a row in every
slot that they mark. They are `Readable` if besides the checksum in front of
them is zero or that of the bytes after it. All of this is said of the bytes
alone, by position. Readable bytes are read, as a page that `Shows` what stands
in them; all others are refused, for their format.

Results:
* `decode_isOk_iff`: the readable bytes are exactly those that are read.
* `shows_of_decode`: what is read stands in the bytes.
* `decode_exact`: both together, and that reading stays within the bytes.
-/
namespace PageStore

namespace Header

/-- Bit `i` of the bitmap at the start of a page. -/
def bitAt (bytes : List UInt8) (i : Nat) : Bool :=
  (bytes.getD (Geometry.checksumWidth + i / 8) 0).toNat.testBit (i % 8)

/-- A mask picks one bit of a byte. -/
theorem and_mask_ne_zero (b : UInt8) (i : Nat) : (b &&& mask i != 0) = b.toNat.testBit (i % 8) := by
  have hnat : (b &&& mask i).toNat = (b.toNat.testBit (i % 8)).toNat * 2 ^ (i % 8) := by
    rw [UInt8.toNat_and, toNat_mask, Nat.and_two_pow]
  have hzero : b &&& mask i = 0 ↔ b.toNat.testBit (i % 8) = false := by
    rw [← UInt8.toNat_inj, hnat]
    cases b.toNat.testBit (i % 8) <;> simp
  cases hb : b.toNat.testBit (i % 8) <;> simp_all

theorem getD_bitmapOf {bytes : List UInt8} {slots k : Nat} (hk : k < Geometry.bitmapWidth slots) :
    (bitmapOf bytes slots).getD k 0 = bytes.getD (Geometry.checksumWidth + k) 0 := by
  rw [bitmapOf, List.getD_eq_getElem?_getD, List.getElem?_take_of_lt hk, List.getElem?_drop,
    List.getD_eq_getElem?_getD]

/-- A byte is below a power of two exactly if the bits from there on are clear. -/
theorem lt_two_pow_iff {b : UInt8} {k : Nat} :
    b.toNat < 2 ^ k ↔ ∀ j, k ≤ j → j < 8 → b.toNat.testBit j = false := by
  constructor
  · intro h j hj _
    exact Nat.testBit_lt_two_pow (Nat.lt_of_lt_of_le h (Nat.pow_le_pow_right (by decide) hj))
  · intro h
    refine Nat.lt_pow_two_of_testBit _ fun j hj => ?_
    by_cases hj8 : j < 8
    · exact h j hj hj8
    · have hb : b.toNat < 2 ^ 8 := b.toNat_lt
      exact Nat.testBit_lt_two_pow
        (Nat.lt_of_lt_of_le hb (Nat.pow_le_pow_right (by decide) (Nat.not_lt.1 hj8)))

/-- A header has no stray bits exactly if every bit past the last slot is clear. -/
theorem hasStrayBits_eq_false_iff {bytes : List UInt8} {slots : Nat}
    (h : Geometry.headerWidth slots ≤ bytes.length) :
    hasStrayBits slots (bitmapOf bytes slots) = false ↔
      ∀ i, slots ≤ i → i < Geometry.bitmapWidth slots * 8 → bitAt bytes i = false := by
  have hlow := Geometry.le_bitmapWidth slots
  have hhigh := Geometry.bitmapWidth_le slots
  have hlen := length_bitmapOf h
  by_cases htail : 0 < Geometry.bitmapWidth slots * 8 - slots
  · have hlast : (bitmapOf bytes slots).getLastD 0 =
        bytes.getD (Geometry.checksumWidth + (Geometry.bitmapWidth slots - 1)) 0 := by
      rw [List.getLastD_eq_getLast?, List.getLast?_eq_getElem?, ← List.getD_eq_getElem?_getD, hlen,
        getD_bitmapOf (by omega)]
    simp only [hasStrayBits, htail, decide_true, Bool.true_and, bne_eq_false_iff_eq, hlast,
      Nat.shiftRight_eq_div_pow, Nat.div_eq_zero_iff_lt (Nat.two_pow_pos _), lt_two_pow_iff]
    constructor
    · intro hclear i hi hbits
      have hbyte : i / 8 = Geometry.bitmapWidth slots - 1 := by omega
      rw [bitAt, hbyte]
      exact hclear (i % 8) (by omega) (by omega)
    · intro hclear j hj hj8
      have hbit := hclear ((Geometry.bitmapWidth slots - 1) * 8 + j) (by omega) (by omega)
      have hbyte : ((Geometry.bitmapWidth slots - 1) * 8 + j) / 8 = Geometry.bitmapWidth slots - 1 := by
        omega
      have hplace : ((Geometry.bitmapWidth slots - 1) * 8 + j) % 8 = j := by omega
      rwa [bitAt, hbyte, hplace] at hbit
  · simp only [hasStrayBits, htail, decide_false, Bool.false_and, true_iff]
    intro i hi hbits
    omega

/-- A header that was read marks the slots whose bits are set. -/
theorem isUsed_of_decode {bytes : List UInt8} {slots : Nat} {h : Header}
    (hd : decode bytes slots = .ok h) {i : Nat} (hi : i < slots) : h.isUsed i = bitAt bytes i := by
  obtain ⟨-, -, rfl⟩ := decode_eq_ok_iff.1 hd
  have hlow := Geometry.le_bitmapWidth slots
  rw [isUsed, decide_eq_true hi, Bool.true_and, and_mask_ne_zero, getD_bitmapOf (by omega), bitAt]

/-- The checksum in front is zero or that of the bytes after it. -/
def ChecksumHolds (bytes : List UInt8) : Prop :=
  Word.littleAt bytes = 0 ∨
    Word.littleAt bytes = (Checksum.crc32 (bytes.drop Geometry.checksumWidth)).toNat

theorem verifies_iff {h : Header} {bytes : List UInt8} (hlen : 4 ≤ bytes.length)
    (hc : h.checksum = Word.ofLittle bytes) : h.verifies bytes = true ↔ ChecksumHolds bytes := by
  rw [verifies, Bool.or_eq_true, beq_iff_eq, beq_iff_eq, hc, ChecksumHolds, ← Word.toNat_ofLittle hlen,
    ← UInt32.toNat_inj, ← UInt32.toNat_inj, checksumOf]
  exact Iff.rfl

end Header

namespace Page

/-- Where slot `i` of a page starts. -/
def slotStart (layout : Layout) (size i : Nat) : Nat :=
  Geometry.headerWidth (Geometry.slotCount size layout.width) + i * layout.width

/-- The bytes are a page of this layout and size, their checksum apart. -/
structure Legible (layout : Layout) (size : Nat) (bytes : List UInt8) : Prop where
  length : bytes.length = size
  header : Geometry.headerWidth (Geometry.slotCount size layout.width) ≤ size
  clear : ∀ i, Geometry.slotCount size layout.width ≤ i →
    i < Geometry.bitmapWidth (Geometry.slotCount size layout.width) * 8 → Header.bitAt bytes i = false
  rows : ∀ i < Geometry.slotCount size layout.width, Header.bitAt bytes i = true →
    ∀ (column : Nat) (ty : FieldType), layout.types[column]? = some ty →
      ty.LegibleAt bytes (slotStart layout size i + Layout.offset layout.types column)

/-- The bytes are a page of this layout and size, and their checksum says so or is zero. -/
structure Readable (layout : Layout) (size : Nat) (bytes : List UInt8) : Prop where
  legible : Legible layout size bytes
  checksum : Header.ChecksumHolds bytes

/-- The page is clean, and in its slots is what stands in the bytes. -/
structure Shows (p : Page) (id : PageId) (layout : Layout) (size : Nat) (bytes : List UInt8) :
    Prop where
  place : p.id = id ∧ p.layout = layout ∧ p.size = size ∧ p.dirtier = none
  length : p.slots.length = Geometry.slotCount size layout.width
  used : ∀ i < Geometry.slotCount size layout.width, p.isUsed i = Header.bitAt bytes i
  row : ∀ (i : Nat) (t : Tuple), p.row? i = some t →
    t.layout = layout ∧ t.record = some ⟨id, i⟩ ∧ t.fields.map Field.type = layout.types ∧
      ∀ (column : Nat) (f : Field), t.fields[column]? = some f →
        f.StandsAt bytes (slotStart layout size i + Layout.offset layout.types column)

section
variable {id : PageId} {layout : Layout} {size : Nat} {bytes : List UInt8}

/-- A slot lies within the page. -/
theorem slotStart_add_le {i : Nat} (hsize : Geometry.checksumWidth ≤ size)
    (hi : i < Geometry.slotCount size layout.width) :
    slotStart layout size i + layout.width ≤ size := by
  have hfit := Geometry.headerWidth_add_le layout.width hsize
  have hslot : (i + 1) * layout.width ≤ Geometry.slotCount size layout.width * layout.width :=
    Nat.mul_le_mul_right _ hi
  rw [Nat.succ_mul] at hslot
  unfold slotStart
  omega

/-- What the columns of a slot say is what the page says at their places. -/
theorem decodeFields_slotAt_isOk_iff {i : Nat}
    (hfit : slotStart layout size i + layout.width ≤ bytes.length) :
    (∃ fields, Tuple.decodeFields layout.types
        ((bytes.drop (slotStart layout size i)).take layout.width) = .ok fields) ↔
      ∀ (column : Nat) (ty : FieldType), layout.types[column]? = some ty →
        ty.LegibleAt bytes (slotStart layout size i + Layout.offset layout.types column) := by
  have hlen : Layout.widthOf layout.types ≤
      ((bytes.drop (slotStart layout size i)).take layout.width).length := by
    rw [List.length_take, List.length_drop, ← Layout.width_eq]
    omega
  rw [Tuple.decodeFields_isOk_iff hlen]
  refine forall_congr' fun column => forall_congr' fun ty => forall_congr' fun hty => ?_
  rw [FieldType.legibleAt_take (Layout.offset_add_le hty), FieldType.legibleAt_drop]

theorem decodeSlot_isOk_iff {h : Header} {i : Nat}
    (hn : h.slots = Geometry.slotCount size layout.width)
    (hfit : slotStart layout size i + layout.width ≤ bytes.length) :
    (∃ s, decodeSlot id layout h bytes i = .ok s) ↔
      (h.isUsed i = true → ∀ (column : Nat) (ty : FieldType), layout.types[column]? = some ty →
        ty.LegibleAt bytes (slotStart layout size i + Layout.offset layout.types column)) := by
  rw [← decodeFields_slotAt_isOk_iff hfit]
  unfold decodeSlot Tuple.decode slotAt
  rw [hn]
  change _ ↔ (h.isUsed i = true → ∃ fields, Tuple.decodeFields layout.types
    ((bytes.drop (Geometry.headerWidth (Geometry.slotCount size layout.width) +
      i * layout.width)).take layout.width) = .ok fields)
  cases Tuple.decodeFields layout.types
    ((bytes.drop (Geometry.headerWidth (Geometry.slotCount size layout.width) +
      i * layout.width)).take layout.width) <;>
    cases h.isUsed i <;> simp [Except.map]

theorem decodeSlots_isOk_iff {h : Header} : ∀ {is : List Nat},
    (∃ ss, decodeSlots id layout h bytes is = .ok ss) ↔
      ∀ i ∈ is, ∃ s, decodeSlot id layout h bytes i = .ok s
  | [] => ⟨fun _ i hi => by simp at hi, fun _ => ⟨[], rfl⟩⟩
  | i :: is => by
    rw [List.forall_mem_cons, ← decodeSlots_isOk_iff, decodeSlots]
    cases decodeSlot id layout h bytes i with
    | error e => simp
    | ok s => cases decodeSlots id layout h bytes is <;> simp [Except.map]

/-- The readable bytes are exactly those that are read. -/
theorem decode_isOk_iff : (∃ p, decode id layout size bytes = .ok p) ↔ Readable layout size bytes := by
  have hbody : (∃ p, decode id layout size bytes = .ok p) ↔
      ∃ slots, decodeBody id layout size bytes = .ok slots := by
    unfold decode
    cases decodeBody id layout size bytes <;> simp
  simp only [hbody, decodeBody_eq_ok_iff]
  constructor
  · rintro ⟨slots, hlen, h, hd, hv, hs⟩
    obtain ⟨hheader, hstray, he⟩ := Header.decode_eq_ok_iff.1 hd
    have hfour : 4 ≤ bytes.length := Nat.le_trans (Nat.le_add_right _ _) hheader
    have hn : h.slots = Geometry.slotCount size layout.width := by rw [he]
    refine ⟨⟨hlen, hlen ▸ hheader, (Header.hasStrayBits_eq_false_iff hheader).1 hstray, ?_⟩,
      (Header.verifies_iff hfour (by rw [he])).1 hv⟩
    intro i hi hbit
    obtain ⟨s, hslot⟩ := decodeSlots_isOk_iff.1 ⟨slots, hs⟩ i (List.mem_range.2 (hn ▸ hi))
    have hfit := slotStart_add_le (hlen ▸ hfour) hi
    refine (decodeSlot_isOk_iff hn (hlen.symm ▸ hfit)).1 ⟨s, hslot⟩ ?_
    rw [Header.isUsed_of_decode hd hi, hbit]
  · rintro ⟨⟨hlen, hheader, hclear, hrows⟩, hsum⟩
    have hheader' : Geometry.headerWidth (Geometry.slotCount size layout.width) ≤ bytes.length := by
      rwa [hlen]
    have hfour : 4 ≤ bytes.length := Nat.le_trans (Nat.le_add_right _ _) hheader'
    obtain ⟨h, hd, hn, hc⟩ : ∃ h, Header.decode bytes (Geometry.slotCount size layout.width) = .ok h ∧
        h.slots = Geometry.slotCount size layout.width ∧ h.checksum = Word.ofLittle bytes :=
      ⟨_, Header.decode_eq_ok_iff.2
        ⟨hheader', (Header.hasStrayBits_eq_false_iff hheader').2 hclear, rfl⟩, rfl, rfl⟩
    have hslots : ∀ i ∈ List.range h.slots, ∃ s, decodeSlot id layout h bytes i = .ok s := by
      intro i hi
      rw [List.mem_range, hn] at hi
      have hfit := slotStart_add_le (hlen ▸ hfour) hi
      refine (decodeSlot_isOk_iff hn (hlen.symm ▸ hfit)).2 fun hused => hrows i hi ?_
      rw [← Header.isUsed_of_decode hd hi, hused]
    obtain ⟨slots, hs⟩ := decodeSlots_isOk_iff.2 hslots
    exact ⟨slots, hlen, h, hd, (Header.verifies_iff hfour hc).2 hsum, hs⟩

theorem isSome_of_decodeSlot {h : Header} {i : Nat} {s : Option Tuple}
    (hd : decodeSlot id layout h bytes i = .ok s) : s.isSome = h.isUsed i := by
  unfold decodeSlot at hd
  split at hd
  · next hu =>
    split at hd <;> cases hd
    exact hu.symm
  · next hu =>
    cases hd
    exact (Bool.eq_false_iff.2 hu).symm

theorem fields_of_decodeSlot {h : Header} {i : Nat} {t : Tuple}
    (hd : decodeSlot id layout h bytes i = .ok (some t)) :
    Tuple.decodeFields layout.types (slotAt bytes h.slots layout.width i) = .ok t.fields := by
  unfold decodeSlot at hd
  split at hd
  · split at hd
    · next u hu =>
      cases hd
      obtain ⟨fields, hf, rfl⟩ := except_map_eq_ok hu
      exact hf
    · cases hd
  · cases hd

/-- What was read stands in the bytes. -/
theorem shows_of_decode {p : Page} (hp : decode id layout size bytes = .ok p) :
    p.Shows id layout size bytes := by
  obtain ⟨slots, hb, rfl⟩ := decode_eq_ok hp
  obtain ⟨hlen, h, hd, -, hs⟩ := decodeBody_eq_ok_iff.1 hb
  obtain ⟨-, -, he⟩ := Header.decode_eq_ok_iff.1 hd
  have hn : h.slots = Geometry.slotCount size layout.width := by rw [he]
  obtain ⟨hcount, hall⟩ := decodeSlots_spec hs
  rw [List.length_range, hn] at hcount
  have hslot : ∀ i < Geometry.slotCount size layout.width,
      ∃ s, slots[i]? = some s ∧ decodeSlot id layout h bytes i = .ok s := fun i hi =>
    hall i i (List.getElem?_range (hn ▸ hi))
  refine ⟨⟨rfl, rfl, rfl, rfl⟩, hcount, fun i hi => ?_, fun i t ht => ?_⟩
  · obtain ⟨s, hget, hds⟩ := hslot i hi
    rw [isUsed, row?, hget, Option.join_some, isSome_of_decodeSlot hds, Header.isUsed_of_decode hd hi]
  · have hget : slots[i]? = some (some t) := Option.join_eq_some_iff.1 ht
    obtain ⟨hi, -⟩ := List.getElem?_eq_some_iff.1 hget
    obtain ⟨s, hget', hds⟩ := hslot i (hcount ▸ hi)
    cases hget.symm.trans hget'
    obtain ⟨hrecord, hlayout, htypes, -⟩ := decodeSlot_eq_ok hds
    refine ⟨hlayout, hrecord, hlayout ▸ htypes, fun column f hf => ?_⟩
    have hfields := fields_of_decodeSlot hds
    have hstands := Tuple.standsAt_of_decodeFields hfields column f hf
    have hcolumn : layout.types[column]? = some f.type := by
      rw [← (Tuple.of_decodeFields hfields).1, List.getElem?_map, hf, Option.map_some]
    rwa [slotAt, Field.standsAt_take (Layout.offset_add_le hcolumn), Field.standsAt_drop, hn]
      at hstands

/-- Bytes that are not read are refused for their format, under the page's id. -/
theorem decode_eq_error {e : Error} (h : decode id layout size bytes = .error e) :
    ∃ reason, e = .format id reason := by
  unfold decode at h
  split at h <;> cases h
  exact ⟨_, rfl⟩

/-- A page is read from bytes exactly if they are its format: reading never asks
for bytes that are not there, the readable bytes are those that are read, what
is read stands in them, and all others are refused for their format. -/
theorem decode_exact (id : PageId) (layout : Layout) (size : Nat) (bytes : List UInt8) :
    read? id layout size bytes = some (decode id layout size bytes) ∧
      ((∃ p, decode id layout size bytes = .ok p) ↔ Readable layout size bytes) ∧
      (∀ p, decode id layout size bytes = .ok p → p.Shows id layout size bytes) ∧
      ∀ e, decode id layout size bytes = .error e → ∃ reason, e = .format id reason :=
  ⟨read?_eq id layout size bytes, decode_isOk_iff, fun _ => shows_of_decode, fun _ => decode_eq_error⟩

end

end Page
end PageStore
