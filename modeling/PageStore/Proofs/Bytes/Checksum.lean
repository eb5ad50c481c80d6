import Mathlib.Data.Nat.Bitwise
import PageStore.Bytes.Checksum

/-!
# One changed byte changes the checksum

The polynomial has its highest bit set, so after one bit was divided the
highest bit of the remainder tells whether the polynomial was subtracted, and
the division can be taken back. Hence no two remainders meet: bytes that differ
in one byte differ in their remainder there, and still differ after any equal
bytes that follow.

Results:
* `shift_injective`, `step_left_injective`, `step_right_injective`,
  `update_injective`: dividing loses nothing.
* `crc32_set_ne`: whoever changes one byte changes the checksum.
-/
namespace PageStore.Checksum

theorem and_one_eq_zero_iff (r : UInt32) : r &&& 1 = 0 ↔ r.toNat.testBit 0 = false := by
  have h : (1 : UInt32).toNat = 1 := rfl
  rw [← UInt32.toNat_inj, UInt32.toNat_and, h, Nat.and_one_is_mod, Nat.testBit_zero]
  simp only [decide_eq_false_iff_not, UInt32.toNat_zero]
  omega

theorem toNat_shiftRight_one (r : UInt32) : (r >>> 1).toNat = r.toNat / 2 := by
  rw [UInt32.toNat_shiftRight]
  simp [Nat.shiftRight_eq_div_pow]

/-- The highest bit of the remainder is the bit that was divided. -/
theorem testBit_shift (r : UInt32) : (shift r).toNat.testBit 31 = r.toNat.testBit 0 := by
  have hr := r.toNat_lt
  have hhalf : (r.toNat / 2).testBit 31 = false := Nat.testBit_lt_two_pow (by omega)
  unfold shift
  split
  · next h => rw [toNat_shiftRight_one, hhalf, (and_one_eq_zero_iff r).1 h]
  · next h =>
    have hodd : r.toNat.testBit 0 = true := by
      rwa [and_one_eq_zero_iff, Bool.not_eq_false] at h
    have htop : polynomial.toNat.testBit 31 = true := by decide
    rw [UInt32.toNat_xor, Nat.testBit_xor, toNat_shiftRight_one, hhalf, htop, hodd]
    rfl

theorem xor_left_injective {a b c : UInt32} (h : a ^^^ c = b ^^^ c) : a = b := by
  have := congrArg (· ^^^ c) h
  simpa [UInt32.xor_assoc] using this

theorem shift_injective {r s : UInt32} (h : shift r = shift s) : r = s := by
  have hlow : r.toNat.testBit 0 = s.toNat.testBit 0 := by
    rw [← testBit_shift r, ← testBit_shift s, h]
  have hhigh : r >>> 1 = s >>> 1 := by
    by_cases hr : r &&& 1 = 0
    · have hs : s &&& 1 = 0 := by rwa [and_one_eq_zero_iff, ← hlow, ← and_one_eq_zero_iff]
      rwa [shift, shift, if_pos hr, if_pos hs] at h
    · have hs : ¬s &&& 1 = 0 := by rwa [and_one_eq_zero_iff, ← hlow, ← and_one_eq_zero_iff]
      rw [shift, shift, if_neg hr, if_neg hs] at h
      exact xor_left_injective h
  have hhalf := congrArg UInt32.toNat hhigh
  rw [toNat_shiftRight_one, toNat_shiftRight_one] at hhalf
  rw [Nat.testBit_zero, Nat.testBit_zero, decide_eq_decide] at hlow
  apply UInt32.toNat_inj.1
  omega

theorem shifts_injective : ∀ (n : Nat) {r s : UInt32}, shifts n r = shifts n s → r = s
  | 0, _, _, h => h
  | n + 1, _, _, h => shift_injective (shifts_injective n h)

theorem step_left_injective {r s : UInt32} {b : UInt8} (h : step r b = step s b) : r = s :=
  xor_left_injective (shifts_injective 8 h)

theorem step_right_injective {r : UInt32} {a b : UInt8} (h : step r a = step r b) : a = b := by
  have hx : r ^^^ a.toUInt32 = r ^^^ b.toUInt32 := shifts_injective 8 h
  rw [UInt32.xor_comm r, UInt32.xor_comm r] at hx
  have := congrArg UInt32.toNat (xor_left_injective hx)
  exact UInt8.toNat_inj.1 (by simpa using this)

theorem update_injective : ∀ (bytes : List UInt8) {r s : UInt32},
    update r bytes = update s bytes → r = s
  | [], _, _, h => h
  | _ :: bytes, _, _, h => step_left_injective (update_injective bytes h)

/-- Bytes that differ in one byte have different checksums. -/
theorem crc32_set_ne {bytes : List UInt8} {k : Nat} {b : UInt8} (hk : k < bytes.length)
    (hb : bytes[k]? ≠ some b) : crc32 (bytes.set k b) ≠ crc32 bytes := by
  intro h
  have h : update 0xFFFFFFFF (bytes.set k b) = update 0xFFFFFFFF bytes := xor_left_injective h
  have hsplit : bytes = bytes.take k ++ bytes[k] :: bytes.drop (k + 1) := by simp
  rw [List.set_eq_take_append_cons_drop, if_pos hk] at h
  conv at h => rhs; rw [hsplit]
  rw [update_append, update_append] at h
  have hstep := step_right_injective (update_injective (bytes.drop (k + 1)) h)
  exact hb (by rw [List.getElem?_eq_getElem hk, hstep])

end PageStore.Checksum
