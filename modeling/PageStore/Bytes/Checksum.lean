/-!
# The CRC-32 checksum

The cyclic redundancy check with the reflected polynomial `0xEDB88320`,
starting from all ones and complemented at the end. Bytes are taken one after
another, each bit by bit from its lowest.

Results:
* `update_append`: a checksum can be computed piece by piece.
-/
namespace PageStore.Checksum

/-- The generator polynomial, lowest power in the highest bit. -/
def polynomial : UInt32 := 0xEDB88320

/-- Divides by the polynomial for one bit. -/
def shift (r : UInt32) : UInt32 :=
  if r &&& 1 = 0 then r >>> 1 else (r >>> 1) ^^^ polynomial

/-- Divides by the polynomial for `n` bits. -/
def shifts : Nat → UInt32 → UInt32
  | 0, r => r
  | n + 1, r => shifts n (shift r)

/-- Takes one byte into the remainder. -/
def step (r : UInt32) (b : UInt8) : UInt32 := shifts 8 (r ^^^ b.toUInt32)

/-- Takes bytes into the remainder. -/
def update (r : UInt32) (bytes : List UInt8) : UInt32 := bytes.foldl step r

/-- The checksum of the bytes. -/
def crc32 (bytes : List UInt8) : UInt32 := update 0xFFFFFFFF bytes ^^^ 0xFFFFFFFF

theorem update_append (r : UInt32) (a b : List UInt8) :
    update r (a ++ b) = update (update r a) b := List.foldl_append

end PageStore.Checksum
