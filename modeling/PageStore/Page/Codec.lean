import PageStore.Page.Basic
import PageStore.Page.Header

/-!
# Pages as bytes

A page is stored as its header, its slots one after another, and zeros up to
the page size. Free slots are zeros, so the same rows in the same slots always
give the same bytes. Reading checks, in this order: the number of bytes, the
header, the checksum, and the rows of the used slots by ascending slot.

Results:
* `decode_length`: only as many bytes as the page size are accepted.
-/
namespace PageStore.Page

/-- The bytes of a slot in which rows take `width` bytes. -/
def slotBytes (width : Nat) : Option Tuple → List UInt8
  | some t => t.encode
  | none => List.replicate width 0

/-- Marks the used ones among the slots from number `i` on. -/
def markUsed : Nat → List (Option Tuple) → Header → Header
  | _, [], h => h
  | i, s :: rest, h => markUsed (i + 1) rest (if s.isSome then h.set i true else h)

/-- The header of the page, not yet checksummed. -/
def header (p : Page) : Header := markUsed 0 p.slots (Header.empty p.slots.length)

/-- Everything of the page but its checksum: bitmap and slots, filled up with zeros. -/
def body (p : Page) : List UInt8 :=
  let used := p.header.bitmap ++ p.slots.flatMap (slotBytes p.layout.width)
  used ++ List.replicate (p.size - Geometry.checksumWidth - used.length) 0

/-- The bytes of the page. -/
def image (p : Page) : List UInt8 := Word.little (Checksum.crc32 p.body) ++ p.body

/-- The bytes of the page; a page too small for its header has none.
mirrors `to_bytes` -/
def encode (p : Page) : Except Misuse (List UInt8) :=
  if p.size < Geometry.headerWidth p.slots.length then .error .headerOverflow else .ok p.image

/-- The bytes that slot `i` takes in a page of `n` slots. -/
def slotAt (bytes : List UInt8) (n width i : Nat) : List UInt8 :=
  (bytes.drop (Geometry.headerWidth n + i * width)).take width

/-- The content of slot `i` according to header and bytes. -/
def decodeSlot (id : PageId) (layout : Layout) (h : Header) (bytes : List UInt8) (i : Nat) :
    Except FormatError (Option Tuple) :=
  if h.isUsed i then
    match Tuple.decode layout (slotAt bytes h.slots layout.width i) with
    | .ok t => .ok (some { t with record := some ⟨id, i⟩ })
    | .error e => .error (.slot i e)
  else .ok none

/-- The content of the slots with the given numbers; the first fault is reported. -/
def decodeSlots (id : PageId) (layout : Layout) (h : Header) (bytes : List UInt8) :
    List Nat → Except FormatError (List (Option Tuple))
  | [] => .ok []
  | i :: rest =>
    match decodeSlot id layout h bytes i with
    | .error e => .error e
    | .ok s => (decodeSlots id layout h bytes rest).map (s :: ·)

/-- The slots of a page of `size` bytes. -/
def decodeBody (id : PageId) (layout : Layout) (size : Nat) (bytes : List UInt8) :
    Except FormatError (List (Option Tuple)) :=
  if bytes.length ≠ size then .error (.wrongLength size bytes.length)
  else
    match Header.decode bytes (Geometry.slotCount size layout.width) with
    | .error e => .error (.header e)
    | .ok h =>
      if h.verifies bytes then decodeSlots id layout h bytes (List.range h.slots)
      else .error .checksumMismatch

/-- The clean page whose bytes these are.
mirrors `from_bytes` -/
def decode (id : PageId) (layout : Layout) (size : Nat) (bytes : List UInt8) : Except Error Page :=
  match decodeBody id layout size bytes with
  | .ok slots => .ok ⟨id, layout, size, slots, none⟩
  | .error e => .error (.format id e)

theorem decode_length {id : PageId} {layout : Layout} {size : Nat} {bytes : List UInt8} {p : Page}
    (h : decode id layout size bytes = .ok p) : bytes.length = size := by
  unfold decode decodeBody at h
  split at h
  · next hb =>
    split at hb
    · cases hb
    · next hl => simpa using hl
  · cases h

end PageStore.Page
