import PageStore.Proofs.Page.Bitmap

/-!
# Reading a page within its bytes

The reader of a page once more, with nothing taken for granted: a byte or a
part of the bytes is taken only if there is one, one size is taken from another
only if it is not the larger, and a byte is shifted by less than its width. A
step that fails one of these ends the reading with `none`. No bytes whatever
make it end so.

Results:
* `Field.read?_eq`, `Tuple.readFields?_eq`, `Header.read?_eq`: each part of the
  reader stays within the bytes.
* `Page.read?_eq`: so does the reader, for every layout, page size and bytes.
-/
namespace PageStore

/-- The bytes from `start` up to `stop`, if they reach that far. -/
def part? (bytes : List UInt8) (start stop : Nat) : Option (List UInt8) :=
  if start ≤ stop ∧ stop ≤ bytes.length then some ((bytes.drop start).take (stop - start)) else none

/-- The difference of two sizes, if it is one. -/
def minus? (a b : Nat) : Option Nat := if b ≤ a then some (a - b) else none

/-- The first four bytes, taken one by one. -/
def four? (bytes : List UInt8) : Option (List UInt8) := do
  let a ← bytes[0]?
  let b ← bytes[1]?
  let c ← bytes[2]?
  let d ← bytes[3]?
  return [a, b, c, d]

theorem part?_eq {bytes : List UInt8} {start length : Nat} (h : start + length ≤ bytes.length) :
    part? bytes start (start + length) = some ((bytes.drop start).take length) := by
  rw [part?, if_pos ⟨by omega, h⟩, Nat.add_sub_cancel_left]

theorem minus?_eq {a b : Nat} (h : b ≤ a) : minus? a b = some (a - b) := if_pos h

theorem four?_eq {bytes : List UInt8} (h : 4 ≤ bytes.length) : four? bytes = some (bytes.take 4) := by
  match bytes, h with
  | a :: b :: c :: d :: rest, _ => rfl

/-- The value of the type at the front of the bytes.
mirrors `read_from` -/
def Field.read? (ty : FieldType) (bytes : List UInt8) : Option (Except FieldError Field) :=
  if bytes.length < ty.width then some (.error (.short ty.width bytes.length))
  else do
    let word := Word.ofBig (← four? bytes)
    match ty with
    | .int => return .ok (.int word.toInt32)
    | .text =>
      if textWidth < word.toNat then return .error (.tooLong word.toNat textWidth)
      else
        match Utf8.decode (← part? bytes 4 (4 + word.toNat)) with
        | .ok s => return .ok (.text (String.ofList s))
        | .error e => return .error (.notUtf8 e)

theorem Field.read?_eq (ty : FieldType) (bytes : List UInt8) :
    read? ty bytes = some (decode ty bytes) := by
  unfold read? decode
  split
  · rfl
  next hlen =>
  have hword : Word.ofBig (bytes.take 4) = Word.ofBig bytes := by
    rw [Word.ofBig, Word.ofBig, List.take_take, Nat.min_self]
  cases ty with
  | int =>
    rw [four?_eq (by simpa [FieldType.width] using hlen)]
    simp only [Option.bind_eq_bind, Option.bind_some, hword]
    rfl
  | text =>
    rw [FieldType.width] at hlen
    rw [four?_eq (by omega)]
    simp only [Option.bind_eq_bind, Option.bind_some, hword, decodeText]
    split
    · rfl
    next hl =>
    rw [part?_eq (by omega)]
    simp only [Option.bind_some]
    cases Utf8.decode ((bytes.drop 4).take (Word.ofBig bytes).toNat) <;> rfl

/-- The values of a row from `offset` on. -/
def Tuple.readFields? (row : List UInt8) : List FieldType → Nat → Option (Except FieldError (List Field))
  | [], _ => some (.ok [])
  | ty :: types, offset => do
    match ← Field.read? ty (row.drop offset) with
    | .error e => return .error e
    | .ok f => return (← readFields? row types (offset + ty.width)).map (f :: ·)

theorem Tuple.readFields?_eq (row : List UInt8) : ∀ (types : List FieldType) (offset : Nat),
    readFields? row types offset = some (decodeFields types (row.drop offset))
  | [], _ => rfl
  | ty :: types, offset => by
    rw [readFields?, decodeFields, Field.read?_eq, readFields?_eq row types, List.drop_drop]
    simp only [Option.bind_eq_bind, Option.bind_some]
    cases Field.decode ty (row.drop offset) <;> rfl

namespace Header

/-- Whether a bitmap of `slots` bits has a bit set past the last of them. -/
def strayBits? (slots : Nat) (bitmap : List UInt8) : Option Bool := do
  let tail ← minus? (Geometry.bitmapWidth slots * 8) slots
  if 0 < tail then
    let last ← bitmap[← minus? bitmap.length 1]?
    let kept ← minus? 8 tail
    guard (kept < 8)
    return last.toNat >>> kept != 0
  else return false

theorem strayBits?_eq {slots : Nat} {bitmap : List UInt8}
    (hw : bitmap.length = Geometry.bitmapWidth slots) :
    strayBits? slots bitmap = some (hasStrayBits slots bitmap) := by
  have hspare := Geometry.bitmapWidth_le slots
  rw [strayBits?, hasStrayBits, minus?_eq (Geometry.le_bitmapWidth slots), Option.bind_eq_bind,
    Option.bind_some]
  by_cases htail : 0 < Geometry.bitmapWidth slots * 8 - slots
  · have hpos : bitmap.length - 1 < bitmap.length := by omega
    have hlast : bitmap[bitmap.length - 1]? = some (bitmap.getLastD 0) := by
      rw [List.getLastD_eq_getLast?, List.getLast?_eq_getElem?, List.getElem?_eq_getElem hpos]
      rfl
    have hkept : (guard (8 - (Geometry.bitmapWidth slots * 8 - slots) < 8) : Option Unit) = some () :=
      if_pos (by omega)
    rw [if_pos htail, minus?_eq (by omega), Option.bind_some, hlast, Option.bind_eq_bind,
      Option.bind_some, minus?_eq (by omega), Option.bind_some, hkept]
    simp only [htail, decide_true, Bool.true_and]
    rfl
  · rw [if_neg htail]
    simp only [htail, decide_false, Bool.false_and]
    rfl

/-- The header at the start of a page with `slots` slots.
mirrors `from_bytes` -/
def read? (bytes : List UInt8) (slots : Nat) : Option (Except HeaderError Header) :=
  if bytes.length < Geometry.headerWidth slots then
    some (.error (.truncated (Geometry.headerWidth slots) bytes.length))
  else do
    let checksum := Word.ofLittle (← four? bytes)
    let bitmap ← part? bytes Geometry.checksumWidth (Geometry.headerWidth slots)
    if ← strayBits? slots bitmap then return .error (.strayBits slots)
    else return .ok ⟨checksum, slots, bitmap⟩

theorem read?_eq (bytes : List UInt8) (slots : Nat) : read? bytes slots = some (decode bytes slots) := by
  unfold read? decode
  split
  · rfl
  next hlen =>
  have hlen : Geometry.headerWidth slots ≤ bytes.length := Nat.not_lt.1 hlen
  have hfour : 4 ≤ bytes.length := Nat.le_trans (Nat.le_add_right 4 _) hlen
  have hlittle : Word.ofLittle (bytes.take 4) = Word.ofLittle bytes := by
    rw [Word.ofLittle, Word.ofLittle, List.take_take, Nat.min_self]
  have hstray := strayBits?_eq (length_bitmapOf hlen)
  rw [bitmapOf] at hstray
  rw [four?_eq hfour, Geometry.headerWidth, part?_eq hlen]
  simp only [Option.bind_eq_bind, Option.bind_some, hlittle, hstray]
  split <;> rfl

/-- Whether the slot is marked as used.
mirrors `is_used` -/
def isUsed? (h : Header) (slot : Nat) : Option Bool :=
  if slot < h.slots then (h.bitmap[slot / 8]?).map (· &&& mask slot != 0) else some false

theorem isUsed?_eq {h : Header} (hw : h.bitmap.length = Geometry.bitmapWidth h.slots) (slot : Nat) :
    h.isUsed? slot = some (h.isUsed slot) := by
  unfold isUsed? isUsed
  split
  · next hs =>
    have hbyte : slot / 8 < h.bitmap.length := by
      rw [hw]
      have := Geometry.le_bitmapWidth h.slots
      omega
    simp [hs, List.getElem?_eq_getElem hbyte]
  · next hs => simp [hs]

theorem verifies?_eq (h : Header) {page : List UInt8} (hlen : Geometry.checksumWidth ≤ page.length) :
    h.verifies? page = .ok (h.verifies page) := by
  unfold verifies? verifies checksumOf?
  by_cases h0 : h.checksum = 0
  · simp [h0]
  · simp [h0, Nat.not_lt.2 hlen, Except.map]

end Header

namespace Page

/-- The content of slot `i` according to header and bytes. -/
def readSlot? (id : PageId) (layout : Layout) (h : Header) (bytes : List UInt8) (i : Nat) :
    Option (Except FormatError (Option Tuple)) := do
  if ← h.isUsed? i then
    let start := Geometry.headerWidth h.slots + i * layout.width
    match ← Tuple.readFields? (← part? bytes start (start + layout.width)) layout.types 0 with
    | .ok fields => return .ok (some ⟨layout, fields, some ⟨id, i⟩⟩)
    | .error e => return .error (.slot i e)
  else return .ok none

/-- The content of the slots with the given numbers. -/
def readSlots? (id : PageId) (layout : Layout) (h : Header) (bytes : List UInt8) :
    List Nat → Option (Except FormatError (List (Option Tuple)))
  | [] => some (.ok [])
  | i :: rest => do
    match ← readSlot? id layout h bytes i with
    | .error e => return .error e
    | .ok s => return (← readSlots? id layout h bytes rest).map (s :: ·)

/-- The clean page whose bytes these are; none if reading asked for what is not there.
mirrors `from_bytes` -/
def read? (id : PageId) (layout : Layout) (size : Nat) (bytes : List UInt8) :
    Option (Except Error Page) :=
  if bytes.length ≠ size then some (.error (.format id (.wrongLength size bytes.length)))
  else do
    match ← Header.read? bytes (Geometry.slotCount size layout.width) with
    | .error e => return .error (.format id (.header e))
    | .ok h =>
      if ← (h.verifies? bytes).toOption then
        match ← readSlots? id layout h bytes (List.range h.slots) with
        | .error e => return .error (.format id e)
        | .ok slots => return .ok ⟨id, layout, size, slots, none⟩
      else return .error (.format id .checksumMismatch)

theorem readSlot?_eq {id : PageId} {layout : Layout} {h : Header} {bytes : List UInt8} {i : Nat}
    (hw : h.bitmap.length = Geometry.bitmapWidth h.slots)
    (hfit : Geometry.headerWidth h.slots + (i + 1) * layout.width ≤ bytes.length) :
    readSlot? id layout h bytes i = some (decodeSlot id layout h bytes i) := by
  have hfit : Geometry.headerWidth h.slots + i * layout.width + layout.width ≤ bytes.length := by
    rwa [Nat.succ_mul, ← Nat.add_assoc] at hfit
  unfold readSlot? decodeSlot
  simp only [Header.isUsed?_eq hw, part?_eq hfit, Option.bind_eq_bind, Option.bind_some,
    Tuple.readFields?_eq, List.drop_zero]
  split
  · simp only [Tuple.decode, slotAt]
    cases Tuple.decodeFields layout.types
      ((bytes.drop (Geometry.headerWidth h.slots + i * layout.width)).take layout.width) <;> rfl
  · rfl

theorem readSlots?_eq {id : PageId} {layout : Layout} {h : Header} {bytes : List UInt8}
    (hw : h.bitmap.length = Geometry.bitmapWidth h.slots) : ∀ {is : List Nat},
      (∀ i ∈ is, Geometry.headerWidth h.slots + (i + 1) * layout.width ≤ bytes.length) →
        readSlots? id layout h bytes is = some (decodeSlots id layout h bytes is)
  | [], _ => rfl
  | i :: is, hfit => by
    rw [readSlots?, decodeSlots, readSlot?_eq hw (hfit i List.mem_cons_self),
      readSlots?_eq hw fun j hj => hfit j (List.mem_cons_of_mem _ hj)]
    simp only [Option.bind_eq_bind, Option.bind_some]
    cases decodeSlot id layout h bytes i <;> rfl

theorem read?_eq (id : PageId) (layout : Layout) (size : Nat) (bytes : List UInt8) :
    read? id layout size bytes = some (decode id layout size bytes) := by
  unfold read? decode decodeBody
  split
  · rfl
  next hlen =>
  have hlen : bytes.length = size := Decidable.not_not.1 hlen
  simp only [Header.read?_eq, Option.bind_eq_bind, Option.bind_some]
  cases hh : Header.decode bytes (Geometry.slotCount size layout.width) with
  | error e => rfl
  | ok h =>
    obtain ⟨hwidth, -, he⟩ := Header.decode_eq_ok_iff.1 hh
    have hfour : Geometry.checksumWidth ≤ bytes.length := Nat.le_trans (Nat.le_add_right _ _) hwidth
    have hn : h.slots = Geometry.slotCount size layout.width := by rw [he]
    have hbitmap : h.bitmap.length = Geometry.bitmapWidth h.slots := by
      rw [he]
      exact Header.length_bitmapOf hwidth
    have hfit := Geometry.headerWidth_add_le layout.width (hlen ▸ hfour)
    rw [← hn] at hfit
    have hslots : readSlots? id layout h bytes (List.range h.slots) =
        some (decodeSlots id layout h bytes (List.range h.slots)) := by
      refine readSlots?_eq hbitmap fun i hi => ?_
      have : (i + 1) * layout.width ≤ h.slots * layout.width :=
        Nat.mul_le_mul_right _ (List.mem_range.1 hi)
      omega
    simp only [Header.verifies?_eq h hfour, hslots, Except.toOption, Option.bind_some]
    split
    · cases decodeSlots id layout h bytes (List.range h.slots) <;> rfl
    · rfl

end Page
end PageStore
