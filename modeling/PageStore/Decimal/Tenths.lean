/-!
# Numbers with one decimal place

A binary floating point number is an integer times a power of two, so its
tenths are a quotient of two integers, which is rounded exactly. Halves go to
the even neighbour.

Results:
* `roundQuotient_bounds`: the rounded quotient is within half a unit.
* `roundQuotient_tie`: a half goes to an even number.
-/
namespace PageStore.Decimal

/-- The integer nearest to `num / den`; a half goes to the even one. -/
def roundQuotient (num den : Nat) : Nat :=
  let q := num / den
  let r := num % den
  if 2 * r < den ∨ (2 * r = den ∧ q % 2 = 0) then q else q + 1

theorem roundQuotient_bounds (num : Nat) {den : Nat} (h : 0 < den) :
    2 * num ≤ (2 * roundQuotient num den + 1) * den ∧
      2 * roundQuotient num den * den ≤ 2 * num + den := by
  have hd := Nat.div_add_mod num den
  have hm := Nat.mod_lt num h
  unfold roundQuotient
  dsimp only
  generalize num / den = q at *
  generalize num % den = r at *
  subst hd
  split <;> simp only [Nat.add_mul, Nat.mul_add, Nat.one_mul, Nat.mul_one, Nat.mul_assoc,
    Nat.mul_comm q den] <;> generalize den * q = m at * <;> omega

theorem roundQuotient_tie {num den : Nat} (h : 2 * (num % den) = den) :
    roundQuotient num den % 2 = 0 := by
  unfold roundQuotient
  dsimp only
  split
  · next hc => omega
  · next hc => omega

/-- A finite number that is not negative as `m * 2 ^ e`. -/
def parts (x : Float) : Nat × Int :=
  let bits : Nat := x.toBits.toNat
  let exponent : Nat := (bits >>> 52) % (1 <<< 11)
  let fraction : Nat := bits % (1 <<< 52)
  if exponent = 0 then (fraction, -1074) else (fraction + (1 <<< 52), (exponent : Int) - 1075)

/-- The number of tenths nearest to `m * 2 ^ e`. -/
def tenthsOf (m : Nat) (e : Int) : Nat :=
  if 0 ≤ e then (m <<< e.toNat) * 10 else roundQuotient (m * 10) (1 <<< (-e).toNat)

/-- A finite number that is not negative, with one decimal place. -/
def tenths (x : Float) : String :=
  let n := tenthsOf (parts x).1 (parts x).2
  toString (n / 10) ++ "." ++ toString (n % 10)

end PageStore.Decimal
