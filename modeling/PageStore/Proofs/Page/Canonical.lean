import PageStore.Proofs.Page.Reading
import PageStore.Proofs.Page.RoundTrip

/-!
# What writing a page again changes

Reading takes from the bytes of a page which slots are used and what stands in
them. It passes over the rest: the bytes of free slots, those after a text in
its column, those after the last slot. These bytes are `Spare`. All others are
determined by the page that the bytes show, so two byte strings that show the
same page agree in them (`Shows.agree`). The writer leaves the spare bytes zero
and puts the checksum of the rest in front.

So a page that was read is written back as it was, but for the checksum and the
spare bytes; and bytes are left alone exactly if they are `Canonical`: zero where
they are spare, under the right checksum.

Results:
* `Shows.agree`: a page determines its bytes, checksum and spare bytes apart.
* `image_spare`: the writer leaves spare bytes zero.
* `encode_normalizes`: what a page is written as after it was read.
-/
namespace PageStore

theorem getElem?_eq_of_getD {a b : List UInt8} {k : Nat} (ha : k < a.length) (hb : k < b.length)
    (h : a.getD k 0 = b.getD k 0) : a[k]? = b[k]? := by
  simp_all

/-! ## One column -/

/-- A word determines its bytes. -/
theorem Word.getD_of_bigAt {a b : List UInt8} {pos j : Nat} (h : bigAt a pos = bigAt b pos)
    (hj : j < 4) : a.getD (pos + j) 0 = b.getD (pos + j) 0 := by
  have ha : ∀ i, (a.getD i 0).toNat < 256 := fun i => (a.getD i 0).toNat_lt
  have hb : ∀ i, (b.getD i 0).toNat < 256 := fun i => (b.getD i 0).toNat_lt
  have ha0 := ha pos
  have ha1 := ha (pos + 1)
  have ha2 := ha (pos + 2)
  have ha3 := ha (pos + 3)
  have hb0 := hb pos
  have hb1 := hb (pos + 1)
  have hb2 := hb (pos + 2)
  have hb3 := hb (pos + 3)
  unfold bigAt at h
  apply UInt8.toNat_inj.1
  have hj : j = 0 ∨ j = 1 ∨ j = 2 ∨ j = 3 := by omega
  rcases hj with rfl | rfl | rfl | rfl
  · rw [Nat.add_zero]; omega
  · omega
  · omega
  · omega

/-- Byte `k` follows the text that stands at `pos`, within its column. -/
def FieldType.SlackAt (bytes : List UInt8) (pos k : Nat) : FieldType → Prop
  | .int => False
  | .text => pos + 4 + Word.bigAt bytes pos ≤ k ∧ k < pos + FieldType.text.width

theorem FieldType.width_text : FieldType.text.width = 4 + textWidth := rfl

namespace Field

variable {f : Field} {a b : List UInt8} {pos j : Nat}

/-- A text that stands in the bytes has the length that its length word says. -/
theorem length_of_standsAt {s : String} (h : (text s).StandsAt a pos)
    (hlen : pos + FieldType.text.width ≤ a.length) :
    (Utf8.encode s.toList).length = Word.bigAt a pos := by
  obtain ⟨hl, hp⟩ := h
  rw [FieldType.width_text] at hlen
  rw [← hp, payload, List.length_take, List.length_drop]
  omega

/-- Where the same value stands, the same bytes stand, but for what follows a text. -/
theorem getElem?_of_standsAt (ha : f.StandsAt a pos) (hb : f.StandsAt b pos)
    (hla : pos + f.type.width ≤ a.length) (hlb : pos + f.type.width ≤ b.length)
    (hj : j < f.type.width) (hs : ¬f.type.SlackAt a pos (pos + j)) : b[pos + j]? = a[pos + j]? := by
  have hword : j < 4 → Word.bigAt a pos = Word.bigAt b pos → b[pos + j]? = a[pos + j]? :=
    fun h4 h => getElem?_eq_of_getD (by omega) (by omega) (Word.getD_of_bigAt h.symm h4)
  cases f with
  | int n => exact hword hj (ha.symm.trans hb)
  | text s =>
    have hl : Word.bigAt a pos = Word.bigAt b pos := by
      rw [← length_of_standsAt ha hla, ← length_of_standsAt hb hlb]
    by_cases h4 : j < 4
    · exact hword h4 hl
    · have hin : j - 4 < Word.bigAt a pos := by
        simp only [type, FieldType.SlackAt, not_and, Nat.not_lt] at hs
        by_contra hn
        have := hs (by omega)
        simp only [type] at hj
        omega
      have hp : (payload b pos)[j - 4]? = (payload a pos)[j - 4]? := by rw [ha.2, hb.2]
      rw [payload, payload, List.getElem?_take_of_lt (hl ▸ hin), List.getElem?_take_of_lt hin,
        List.getElem?_drop, List.getElem?_drop, show pos + 4 + (j - 4) = pos + j by omega] at hp
      exact hp

/-- What follows a text is written as zeros. -/
theorem encode_slack (hfits : f.fits = true) (ha : f.StandsAt a pos)
    (hla : pos + f.type.width ≤ a.length) (hs : f.type.SlackAt a pos (pos + j)) :
    f.encode[j]? = some 0 := by
  cases f with
  | int n => exact hs.elim
  | text s =>
    have hl := length_of_standsAt ha hla
    rw [← stored_of_fits hfits] at hl
    obtain ⟨hlow, hhigh⟩ := hs
    rw [FieldType.width_text] at hhigh
    have hpast : (Word.big (UInt32.ofNat (stored s).length) ++ stored s).length ≤ j := by
      rw [List.length_append, Word.length_big]
      omega
    rw [encode, List.getElem?_append_right hpast, List.getElem?_replicate, if_pos]
    rw [List.length_append, Word.length_big]
    omega

end Field

/-! ## All columns -/

/-- Every byte of a row belongs to a column. -/
theorem Layout.exists_column : ∀ {types : List FieldType} {r : Nat}, r < widthOf types →
    ∃ column ty, types[column]? = some ty ∧ offset types column ≤ r ∧
      r < offset types column + ty.width
  | [], r, h => absurd h (Nat.not_lt_zero r)
  | ty :: types, r, h => by
    rw [widthOf_cons] at h
    by_cases hr : r < ty.width
    · exact ⟨0, ty, rfl, by simp, by simpa using hr⟩
    · have hrest : r - ty.width < widthOf types := by omega
      obtain ⟨column, uy, hu, hlow, hhigh⟩ := exists_column hrest
      refine ⟨column + 1, uy, by simpa using hu, ?_, ?_⟩
      · rw [offset_cons_succ]; omega
      · rw [offset_cons_succ]; omega

/-- The bytes of a row hold those of its columns at their offsets. -/
theorem Tuple.getElem?_flatMap_encode : ∀ {fields : List Field} {column : Nat} {f : Field} {j : Nat},
    fields[column]? = some f → j < f.type.width →
      (fields.flatMap Field.encode)[Layout.offset (fields.map Field.type) column + j]? = f.encode[j]?
  | [], _, _, _, hf, _ => by simp at hf
  | f :: fields, 0, _, j, hf, hj => by
    cases hf
    rw [Layout.offset_zero, Nat.zero_add, List.flatMap_cons,
      List.getElem?_append_left (by rwa [Field.length_encode])]
  | f :: fields, column + 1, g, j, hf, hj => by
    rw [List.map_cons, Layout.offset_cons_succ, List.flatMap_cons,
      List.getElem?_append_right (by rw [Field.length_encode]; omega), Field.length_encode,
      Nat.add_assoc, Nat.add_sub_cancel_left]
    exact getElem?_flatMap_encode (by simpa using hf) hj

namespace Page

/-! ## Spare bytes -/

/-- Byte `k` says nothing about the page that the bytes show. -/
inductive Spare (layout : Layout) (size : Nat) (bytes : List UInt8) (k : Nat) : Prop
  /-- it belongs to a free slot -/
  | free (i : Nat) (slot : i < Geometry.slotCount size layout.width)
      (unused : Header.bitAt bytes i = false) (low : slotStart layout size i ≤ k)
      (high : k < slotStart layout size i + layout.width)
  /-- it follows a text in a used slot -/
  | slack (i : Nat) (slot : i < Geometry.slotCount size layout.width)
      (used : Header.bitAt bytes i = true) (column : Nat) (ty : FieldType)
      (type : layout.types[column]? = some ty)
      (after : ty.SlackAt bytes (slotStart layout size i + Layout.offset layout.types column) k)
  /-- it comes after the last slot -/
  | tail (low : slotStart layout size (Geometry.slotCount size layout.width) ≤ k) (high : k < size)

/-- The checksum in front is that of the rest, and all spare bytes are zero. -/
structure Canonical (layout : Layout) (size : Nat) (bytes : List UInt8) : Prop where
  checksum : bytes.take 4 = Word.little (Checksum.crc32 (bytes.drop 4))
  blank : ∀ k, Spare layout size bytes k → bytes[k]? = some 0

section
variable {p : Page} {id : PageId} {layout : Layout} {size : Nat} {a b : List UInt8} {k : Nat}

/-- Every byte between the bitmap and the tail belongs to a slot. -/
theorem exists_slot (hlow : Geometry.headerWidth (Geometry.slotCount size layout.width) ≤ k)
    (hhigh : k < slotStart layout size (Geometry.slotCount size layout.width)) :
    ∃ i < Geometry.slotCount size layout.width, ∃ r < layout.width, k = slotStart layout size i + r := by
  unfold slotStart at *
  generalize Geometry.headerWidth (Geometry.slotCount size layout.width) = start at *
  generalize Geometry.slotCount size layout.width = n at *
  have hw : 0 < layout.width := by
    refine Nat.pos_of_ne_zero fun h => ?_
    rw [h] at hhigh
    omega
  have hk := Nat.div_add_mod (k - start) layout.width
  rw [Nat.mul_comm] at hk
  refine ⟨(k - start) / layout.width, ?_, (k - start) % layout.width, Nat.mod_lt _ hw, by omega⟩
  exact (Nat.div_lt_iff_lt_mul hw).2 (by omega)

/-- The bits of a bitmap determine its bytes. -/
theorem getD_of_bitAt {q : Nat} (h : ∀ i, i / 8 = q → Header.bitAt a i = Header.bitAt b i) :
    a.getD (Geometry.checksumWidth + q) 0 = b.getD (Geometry.checksumWidth + q) 0 := by
  apply UInt8.toNat_inj.1
  refine Nat.eq_of_testBit_eq fun j => ?_
  by_cases hj : j < 8
  · have hbit := h (q * 8 + j) (by omega)
    rwa [Header.bitAt, Header.bitAt, show (q * 8 + j) / 8 = q by omega,
      show (q * 8 + j) % 8 = j by omega] at hbit
  · have hbound : ∀ x : UInt8, x.toNat.testBit j = false := fun x =>
      Nat.testBit_lt_two_pow (Nat.lt_of_lt_of_le x.toNat_lt
        (Nat.pow_le_pow_right (by decide) (Nat.not_lt.1 hj)))
    rw [hbound, hbound]

/-- The bitmap says which slots of the page are used, and nothing else. -/
theorem Shows.bitAt_eq (ha : p.Shows id layout size a) (hb : p.Shows id layout size b)
    (hla : Legible layout size a) (hlb : Legible layout size b) {i : Nat}
    (hi : i < Geometry.bitmapWidth (Geometry.slotCount size layout.width) * 8) :
    Header.bitAt b i = Header.bitAt a i := by
  by_cases hslot : i < Geometry.slotCount size layout.width
  · rw [← ha.used i hslot, ← hb.used i hslot]
  · rw [hla.clear i (Nat.not_lt.1 hslot) hi, hlb.clear i (Nat.not_lt.1 hslot) hi]

theorem Legible.checksumWidth_le (h : Legible layout size a) : Geometry.checksumWidth ≤ size :=
  Nat.le_trans (Nat.le_add_right _ _) h.header

/-- A used slot has a row, with a value in every column. -/
theorem Shows.exists_value (h : p.Shows id layout size a) {i column : Nat} {ty : FieldType}
    (hi : i < Geometry.slotCount size layout.width) (hused : Header.bitAt a i = true)
    (hty : layout.types[column]? = some ty) :
    ∃ t f, p.row? i = some t ∧ t.fields[column]? = some f ∧ f.type = ty := by
  obtain ⟨t, ht⟩ : ∃ t, p.row? i = some t :=
    Option.isSome_iff_exists.1 ((h.used i hi).trans hused)
  obtain ⟨-, -, htypes, -⟩ := h.row i t ht
  rw [← htypes, List.getElem?_map] at hty
  obtain ⟨f, hf, he⟩ := Option.map_eq_some_iff.1 hty
  exact ⟨t, f, ht, hf, he⟩

/-- In a used slot, every byte that is not spare is one of the value in its column. -/
theorem Shows.agree_used (ha : p.Shows id layout size a) (hb : p.Shows id layout size b)
    (hla : Legible layout size a) (hlb : Legible layout size b) {i r : Nat}
    (hi : i < Geometry.slotCount size layout.width) (hr : r < layout.width)
    (hused : Header.bitAt a i = true) (hs : ¬Spare layout size a (slotStart layout size i + r)) :
    b[slotStart layout size i + r]? = a[slotStart layout size i + r]? := by
  obtain ⟨column, ty, hty, hlow, hhigh⟩ := Layout.exists_column (Layout.width_eq layout ▸ hr)
  obtain ⟨t, f, ht, hf, rfl⟩ := ha.exists_value hi hused hty
  obtain ⟨-, -, -, hstands⟩ := ha.row i t ht
  obtain ⟨-, -, -, hstands'⟩ := hb.row i t ht
  have hfit := slotStart_add_le hla.checksumWidth_le hi
  have hcolumn := Layout.offset_add_le hty
  have hk : slotStart layout size i + r =
      slotStart layout size i + Layout.offset layout.types column +
        (r - Layout.offset layout.types column) := by omega
  rw [hk] at hs ⊢
  refine Field.getElem?_of_standsAt (hstands column f hf) (hstands' column f hf) ?_ ?_ (by omega)
    fun hslack => hs (.slack i hi hused column f.type hty hslack)
  · rw [hla.length]; omega
  · rw [hlb.length]; omega

/-- A page determines its bytes, but for the checksum and the spare bytes. -/
theorem Shows.agree (ha : p.Shows id layout size a) (hb : p.Shows id layout size b)
    (hla : Legible layout size a) (hlb : Legible layout size b) (h4 : 4 ≤ k) (hk : k < size)
    (hs : ¬Spare layout size a k) : b[k]? = a[k]? := by
  by_cases hheader : k < Geometry.headerWidth (Geometry.slotCount size layout.width)
  · have hbyte := getD_of_bitAt (a := b) (b := a) (q := k - 4) fun i hi => by
      refine Shows.bitAt_eq ha hb hla hlb ?_
      unfold Geometry.headerWidth Geometry.checksumWidth at hheader
      omega
    rw [show Geometry.checksumWidth + (k - 4) = k by unfold Geometry.checksumWidth; omega] at hbyte
    exact getElem?_eq_of_getD (hlb.length ▸ hk) (hla.length ▸ hk) hbyte
  · by_cases htail : k < slotStart layout size (Geometry.slotCount size layout.width)
    · obtain ⟨i, hi, r, hr, rfl⟩ := exists_slot (Nat.not_lt.1 hheader) htail
      cases hused : Header.bitAt a i with
      | true => exact Shows.agree_used ha hb hla hlb hi hr hused hs
      | false => exact absurd (.free i hi hused (by omega) (by omega)) hs
    · exact absurd (.tail (Nat.not_lt.1 htail) hk) hs

/-! ## Writing -/

/-- The bytes of a slot in the image of a page. -/
theorem getElem?_image_slot (hp : p.Sound) {i r : Nat} {s : Option Tuple} (hs : p.slots[i]? = some s)
    (hr : r < p.layout.width) :
    p.image[slotStart p.layout p.size i + r]? = (slotBytes p.layout.width s)[r]? := by
  rw [← slotAt_image hp hs, slotAt, List.getElem?_take_of_lt hr, List.getElem?_drop, slotStart,
    hp.length]

/-- The writer leaves spare bytes zero. -/
theorem image_spare (hp : p.Sound) (ha : p.Shows id p.layout p.size a)
    (hl : Legible p.layout p.size a) (hs : Spare p.layout p.size a k) : p.image[k]? = some 0 := by
  cases hs with
  | free i slot unused low high =>
    have hrow : p.slots[i]? = some none := by
      have hi : i < p.slots.length := by rwa [ha.length]
      have hunused := (ha.used i slot).trans unused
      rw [isUsed, row?, List.getElem?_eq_getElem hi, Option.join_some] at hunused
      rw [List.getElem?_eq_getElem hi]
      exact congrArg some (Option.not_isSome_iff_eq_none.1 (Bool.eq_false_iff.1 hunused))
    obtain ⟨r, rfl⟩ := Nat.exists_eq_add_of_le low
    rw [getElem?_image_slot hp hrow (by omega), slotBytes, List.getElem?_replicate, if_pos (by omega)]
  | slack i slot used column ty type after =>
    obtain ⟨t, f, ht, hf, rfl⟩ := ha.exists_value slot used type
    obtain ⟨-, -, htypes, hstands⟩ := ha.row i t ht
    have hrow : p.slots[i]? = some (some t) := Option.join_eq_some_iff.1 ht
    have hfits : f.fits = true :=
      List.all_eq_true.1 (hp.row i t hrow).2.2.fits f (List.mem_of_getElem? hf)
    have hcolumn := Layout.offset_add_le type
    have hfit := slotStart_add_le hl.checksumWidth_le slot
    obtain ⟨j, rfl, hj⟩ : ∃ j, k = slotStart p.layout p.size i +
        Layout.offset p.layout.types column + j ∧ j < f.type.width := by
      cases f with
      | int n => exact after.elim
      | text s =>
        obtain ⟨hlow, hhigh⟩ := after
        exact ⟨k - (slotStart p.layout p.size i + Layout.offset p.layout.types column), by omega,
          by simp only [Field.type]; omega⟩
    rw [Nat.add_assoc, getElem?_image_slot hp hrow (by omega), slotBytes, Tuple.encode, ← htypes,
      Tuple.getElem?_flatMap_encode hf hj]
    exact Field.encode_slack hfits (hstands column f hf) (by rw [hl.length]; omega) after
  | tail low high =>
    have hused := length_used hp
    rw [slotStart, Geometry.headerWidth, ← hp.length] at low
    have hlen : (Word.little (Checksum.crc32 p.body)).length = Geometry.checksumWidth := rfl
    rw [image, List.getElem?_append_right (by rw [hlen]; omega), hlen, body,
      List.getElem?_append_right (by rw [hused]; omega), hused, List.getElem?_replicate,
      if_pos (by omega)]

/-- A page that was read is clean, and its rows follow the layout that it was read by. -/
theorem asStored_of_decode (h : decode id layout size a = .ok p) : p.asStored = p := by
  have hplace := (shows_of_decode h).place
  have hslots : p.slots.map (Option.map fun t => { t with layout := p.layout }) = p.slots := by
    refine List.ext_getElem? fun i => ?_
    rw [List.getElem?_map]
    match hi : p.slots[i]? with
    | none => rfl
    | some none => rfl
    | some (some t) =>
      have ht := layout_of_decode h hi
      rw [← hplace.2.1] at ht
      simp only [Option.map_some, ← ht]
  rw [asStored, hslots, ← hplace.2.2.2]

theorem take_image (p : Page) :
    p.image.take 4 = Word.little (Checksum.crc32 (p.image.drop 4)) := by
  have hlen : (Word.little (Checksum.crc32 p.body)).length = 4 := rfl
  rw [image, List.take_left' hlen, List.drop_left' hlen]

/-- Writing changes a page that was read exactly in what is not canonical about it. -/
theorem image_eq_iff (hsum : b.take 4 = Word.little (Checksum.crc32 (b.drop 4)))
    (hspare : ∀ k, Spare layout size a k → b[k]? = some 0)
    (hrest : ∀ k, 4 ≤ k → ¬Spare layout size a k → b[k]? = a[k]?) :
    b = a ↔ Canonical layout size a := by
  constructor
  · rintro rfl
    exact ⟨hsum, hspare⟩
  · intro hc
    have hdrop : b.drop 4 = a.drop 4 := by
      refine List.ext_getElem? fun k => ?_
      rw [List.getElem?_drop, List.getElem?_drop]
      by_cases hs : Spare layout size a (4 + k)
      · rw [hspare _ hs, hc.blank _ hs]
      · exact hrest _ (Nat.le_add_right 4 k) hs
    rw [← List.take_append_drop 4 b, ← List.take_append_drop 4 a, hsum, hc.checksum, hdrop]

/-- **Normal form.** A page that was read from some bytes is written as those bytes,
with zeros where they were spare and under the checksum of the rest. So the bytes
come out as they were exactly if they were canonical, and what comes out is read
as the same page. -/
theorem encode_normalizes (h : decode id layout size a = .ok p) :
    ∃ out, p.encode = .ok out ∧ out.length = size ∧
      out.take 4 = Word.little (Checksum.crc32 (out.drop 4)) ∧
      (∀ k, Spare layout size a k → out[k]? = some 0) ∧
      (∀ k, 4 ≤ k → ¬Spare layout size a k → out[k]? = a[k]?) ∧
      (out = a ↔ Canonical layout size a) ∧
      decode id layout size out = .ok p := by
  have hp := sound_decode h
  have hread := decode_isOk_iff.1 ⟨p, h⟩
  have hshows := shows_of_decode h
  have hstored := asStored_of_decode h
  obtain ⟨rfl, rfl, rfl, -⟩ := hshows.place
  have hheader := hread.legible.checksumWidth_le
  have hlen := length_image hp hheader
  have hback : decode p.id p.layout p.size p.image = .ok p := by
    rw [decode_image hp hheader, hstored]
  have hspare : ∀ k, Spare p.layout p.size a k → p.image[k]? = some 0 := fun k =>
    image_spare hp hshows hread.legible
  have hrest : ∀ k, 4 ≤ k → ¬Spare p.layout p.size a k → p.image[k]? = a[k]? := by
    intro k h4 hs
    by_cases hk : k < p.size
    · exact hshows.agree (shows_of_decode hback) hread.legible
        (decode_isOk_iff.1 ⟨p, hback⟩).legible h4 hk hs
    · rw [List.getElem?_eq_none (by omega), List.getElem?_eq_none (by rw [hread.legible.length]; omega)]
  exact ⟨p.image, encode_eq hp hheader, hlen, take_image p, hspare, hrest,
    image_eq_iff (take_image p) hspare hrest, hback⟩

end

/-- Bytes that were never checksummed: slot 0 is free, slot 1 holds `7` and `hi`, and
wherever nothing is stored there is something else than zero. -/
def litteredBytes : List UInt8 :=
  [0, 0, 0, 0, 2] ++ List.replicate 136 0xAA ++ [0, 0, 0, 7] ++ [0, 0, 0, 2, 104, 105] ++
    List.replicate 126 0xEE ++ [0xFF, 0xFF, 0xFF]

/-- The page that they show. -/
def litteredPage : Page :=
  ⟨⟨.numbered 1, 0⟩, .ofTypes [.int, .text], 280,
    [none, some ⟨.ofTypes [.int, .text], [.int 7, .text "hi"], some ⟨⟨.numbered 1, 0⟩, 1⟩⟩], none⟩

theorem encode_normalizes_litteredBytes :
    decode ⟨.numbered 1, 0⟩ (.ofTypes [.int, .text]) 280 litteredBytes = .ok litteredPage ∧
      ∃ out, litteredPage.encode = .ok out ∧ out[5]? = some 0 ∧ out[151]? = some 0 ∧
        out[279]? = some 0 ∧ out ≠ litteredBytes ∧
        decode ⟨.numbered 1, 0⟩ (.ofTypes [.int, .text]) 280 out = .ok litteredPage := by
  have hd : decode ⟨.numbered 1, 0⟩ (.ofTypes [.int, .text]) 280 litteredBytes = .ok litteredPage := by
    decide +kernel
  have hfree : Spare (.ofTypes [.int, .text]) 280 litteredBytes 5 :=
    .free 0 (by decide) (by decide) (by decide) (by decide)
  have hslack : Spare (.ofTypes [.int, .text]) 280 litteredBytes 151 :=
    .slack 1 (by decide) (by decide) 1 .text rfl ⟨by decide, by decide⟩
  have htail : Spare (.ofTypes [.int, .text]) 280 litteredBytes 279 := .tail (by decide) (by decide)
  obtain ⟨out, hout, -, -, hspare, -, hsame, hback⟩ := encode_normalizes hd
  refine ⟨hd, out, hout, hspare 5 hfree, hspare 151 hslack, hspare 279 htail, fun he => ?_, hback⟩
  exact absurd ((hsame.1 he).blank 5 hfree) (by decide)

end Page
end PageStore
