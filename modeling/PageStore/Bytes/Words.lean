/-!
# 32-bit words as bytes

Columns are stored with the most significant byte first (`big`), checksums
with the least significant byte first (`little`).

Results:
* `length_big`, `length_little`: a word takes four bytes either way.
* `ofBig_big`, `ofLittle_little`: reading a written word gives it back, whatever follows.
-/
namespace PageStore.Word

/-- Byte `i` of a word, counted from the least significant. -/
def byte (w : UInt32) (i : Nat) : UInt8 := UInt8.ofNat (w.toNat >>> (8 * i))

def big (w : UInt32) : List UInt8 := [byte w 3, byte w 2, byte w 1, byte w 0]

def little (w : UInt32) : List UInt8 := [byte w 0, byte w 1, byte w 2, byte w 3]

/-- The number whose bytes are given, the least significant first. -/
def value : List UInt8 → Nat
  | [] => 0
  | b :: rest => b.toNat + 256 * value rest

/-- The word at the front of the bytes, the most significant byte first. -/
def ofBig (bytes : List UInt8) : UInt32 := UInt32.ofNat (value (bytes.take 4).reverse)

/-- The word at the front of the bytes, the least significant byte first. -/
def ofLittle (bytes : List UInt8) : UInt32 := UInt32.ofNat (value (bytes.take 4))

@[simp] theorem length_big (w : UInt32) : (big w).length = 4 := rfl

@[simp] theorem length_little (w : UInt32) : (little w).length = 4 := rfl

theorem value_little (w : UInt32) : value (little w) = w.toNat := by
  have := w.toNat_lt
  simp only [little, value, byte, UInt8.toNat_ofNat']
  omega

theorem ofBig_big (w : UInt32) (rest : List UInt8) : ofBig (big w ++ rest) = w := by
  have h : ((big w ++ rest).take 4).reverse = little w := rfl
  rw [ofBig, h, value_little, UInt32.ofNat_toNat]

theorem ofLittle_little (w : UInt32) (rest : List UInt8) : ofLittle (little w ++ rest) = w := by
  have h : (little w ++ rest).take 4 = little w := rfl
  rw [ofLittle, h, value_little, UInt32.ofNat_toNat]

end PageStore.Word
