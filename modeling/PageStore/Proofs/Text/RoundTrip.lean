import PageStore.Bytes.Utf8

/-!
# UTF-8 texts and their bytes determine each other

A character takes one to four bytes: a first byte that says how many follow
and carries the highest bits of its value, and six bits in each byte after it.
The reader of `Utf8.decodeFrom` meets them one at a time.

Results:
* `decodeFrom_encode`: reading the bytes of a text gives the text back, and
  reading goes on behind it.
* `encode_of_decode`: bytes that are accepted are the bytes of the text read.
* `decode_eq_ok_iff`: both together.
* `fit_of_length_le`: a text that has room is kept whole.
-/
namespace PageStore

theorem except_map_eq_ok {ε α β : Type} {f : α → β} {x : Except ε α} {b : β} (h : x.map f = .ok b) :
    ∃ a, x = .ok a ∧ f a = b := by
  cases x with
  | error e => cases h
  | ok a => exact ⟨a, rfl, by cases h; rfl⟩

namespace Utf8

/-! ## First bytes -/

theorem first_of_one {v : Nat} (h : v ≤ 0x7F) : first v = some ⟨0, 0, 0, v⟩ := by
  unfold first
  rw [if_pos (by omega)]

theorem first_of_two {v : Nat} (h₁ : 0x7F < v) (h₂ : v ≤ 0x7FF) :
    first (v / 64 % 0x20 + 0xC0) = some ⟨1, 0x80, 0xBF, v / 64⟩ := by
  unfold first
  rw [if_neg (by omega), if_neg (by omega), if_pos (by omega),
    show v / 64 % 0x20 + 0xC0 - 0xC0 = v / 64 by omega]

/-- Values of three bytes leave out the surrogates, and so does the range of
the second byte after the first byte `0xED`. -/
theorem first_of_three {v : Nat} (h₁ : 0x7FF < v) (h₂ : v ≤ 0xFFFF) (hs : v < 0xD800 ∨ 0xDFFF < v) :
    ∃ low high, first (v / 4096 % 0x10 + 0xE0) = some ⟨2, low, high, v / 4096⟩ ∧
      low ≤ v / 64 % 0x40 + 0x80 ∧ v / 64 % 0x40 + 0x80 ≤ high := by
  unfold first
  rw [if_neg (by omega), if_neg (by omega), if_neg (by omega)]
  have e : v / 4096 % 0x10 + 0xE0 - 0xE0 = v / 4096 := by omega
  by_cases h0 : v / 4096 % 0x10 + 0xE0 = 0xE0
  · rw [if_pos h0, show v / 4096 = 0 by omega]
    exact ⟨_, _, rfl, by omega, by omega⟩
  by_cases hd : v / 4096 % 0x10 + 0xE0 = 0xED
  · rw [if_neg h0, if_pos hd, show v / 4096 = 0xD by omega]
    exact ⟨_, _, rfl, by omega, by omega⟩
  · rw [if_neg h0, if_neg hd, if_pos (by omega), e]
    exact ⟨_, _, rfl, by omega, by omega⟩

theorem first_of_four {v : Nat} (h₁ : 0xFFFF < v) (h₂ : v < 0x110000) :
    ∃ low high, first (v / 262144 % 0x08 + 0xF0) = some ⟨3, low, high, v / 262144⟩ ∧
      low ≤ v / 4096 % 0x40 + 0x80 ∧ v / 4096 % 0x40 + 0x80 ≤ high := by
  unfold first
  rw [if_neg (by omega), if_neg (by omega), if_neg (by omega), if_neg (by omega),
    if_neg (by omega), if_neg (by omega)]
  have e : v / 262144 % 0x08 + 0xF0 - 0xF0 = v / 262144 := by omega
  by_cases h0 : v / 262144 % 0x08 + 0xF0 = 0xF0
  · rw [if_pos h0, show v / 262144 = 0 by omega]
    exact ⟨_, _, rfl, by omega, by omega⟩
  by_cases hl : v / 262144 % 0x08 + 0xF0 < 0xF4
  · rw [if_neg h0, if_pos hl, e]
    exact ⟨_, _, rfl, by omega, by omega⟩
  · rw [if_neg h0, if_neg hl, if_pos (by omega), show v / 262144 = 4 by omega]
    exact ⟨_, _, rfl, by omega, by omega⟩

/-- What the first byte of a character may be. The bounds on the second byte
keep out values that fewer bytes can hold, surrogates, and values past the end. -/
theorem first_cases {b : Nat} {o : Open} (h : first b = some o) :
    (b < 0x80 ∧ o = ⟨0, 0, 0, b⟩) ∨
    (∃ k, b = k + 0xC0 ∧ 2 ≤ k ∧ k < 32 ∧ o = ⟨1, 0x80, 0xBF, k⟩) ∨
    (∃ k low high, b = k + 0xE0 ∧ k < 16 ∧ o = ⟨2, low, high, k⟩ ∧ 0x80 ≤ low ∧ high ≤ 0xBF ∧
      (k = 0 → 0xA0 ≤ low) ∧ (k = 13 → high ≤ 0x9F)) ∨
    (∃ k low high, b = k + 0xF0 ∧ k ≤ 4 ∧ o = ⟨3, low, high, k⟩ ∧ 0x80 ≤ low ∧ high ≤ 0xBF ∧
      (k = 0 → 0x90 ≤ low) ∧ (k = 4 → high ≤ 0x8F)) := by
  unfold first at h
  split at h
  · next h1 => cases h; exact .inl ⟨h1, rfl⟩
  split at h
  · cases h
  split at h
  · cases h
    exact .inr (.inl ⟨b - 0xC0, by omega, by omega, by omega, rfl⟩)
  split at h
  · cases h
    exact .inr (.inr (.inl ⟨0, _, _, by omega, by omega, rfl, by omega, by omega, by omega, by omega⟩))
  split at h
  · cases h
    exact .inr (.inr (.inl ⟨13, _, _, by omega, by omega, rfl, by omega, by omega, by omega, by omega⟩))
  split at h
  · cases h
    exact .inr (.inr (.inl ⟨b - 0xE0, _, _, by omega, by omega, rfl, by omega, by omega, by omega,
      by omega⟩))
  split at h
  · cases h
    exact .inr (.inr (.inr ⟨0, _, _, by omega, by omega, rfl, by omega, by omega, by omega, by omega⟩))
  split at h
  · cases h
    exact .inr (.inr (.inr ⟨b - 0xF0, _, _, by omega, by omega, rfl, by omega, by omega, by omega,
      by omega⟩))
  split at h
  · cases h
    exact .inr (.inr (.inr ⟨4, _, _, by omega, by omega, rfl, by omega, by omega, by omega, by omega⟩))
  · cases h

/-! ## Reading what was written -/

theorem toNat_ofNat_byte {n : Nat} (h : n < 256) : (UInt8.ofNat n).toNat = n := by
  rw [UInt8.toNat_ofNat']; omega

/-- A byte in range that does not end its character. -/
theorem decodeFrom_more {start seen n low high value b : Nat} {rest : List UInt8} (hb : b < 256)
    (h₁ : low ≤ b) (h₂ : b ≤ high) :
    decodeFrom start (.inside seen ⟨n + 2, low, high, value⟩) (UInt8.ofNat b :: rest) =
      decodeFrom start (.inside (seen + 1) ⟨n + 1, 0x80, 0xBF, value * 64 + (b - 0x80)⟩) rest := by
  simp [decodeFrom, toNat_ofNat_byte hb, h₁, h₂, Open.push]

/-- A byte in range that ends its character. -/
theorem decodeFrom_last {start seen low high value b : Nat} {rest : List UInt8} (hb : b < 256)
    (h₁ : low ≤ b) (h₂ : b ≤ high) :
    decodeFrom start (.inside seen ⟨1, low, high, value⟩) (UInt8.ofNat b :: rest) =
      (decodeFrom (start + seen + 1) .between rest).map
        (Char.ofNat (value * 64 + (b - 0x80)) :: ·) := by
  simp [decodeFrom, toNat_ofNat_byte hb, h₁, h₂, Open.push]

/-- The bytes of the character with value `v`. -/
def encodeValue (v : Nat) : List UInt8 :=
  if v ≤ 0x7F then [UInt8.ofNat v]
  else if v ≤ 0x7FF then [UInt8.ofNat (v / 64 % 0x20 + 0xC0), UInt8.ofNat (v % 0x40 + 0x80)]
  else if v ≤ 0xFFFF then
    [UInt8.ofNat (v / 4096 % 0x10 + 0xE0), UInt8.ofNat (v / 64 % 0x40 + 0x80),
      UInt8.ofNat (v % 0x40 + 0x80)]
  else
    [UInt8.ofNat (v / 262144 % 0x08 + 0xF0), UInt8.ofNat (v / 4096 % 0x40 + 0x80),
      UInt8.ofNat (v / 64 % 0x40 + 0x80), UInt8.ofNat (v % 0x40 + 0x80)]

theorem utf8EncodeChar_eq (c : Char) : String.utf8EncodeChar c = encodeValue c.toNat := rfl

theorem decodeFrom_value (start : Nat) {v : Nat} (hv : v.isValidChar) (rest : List UInt8) :
    decodeFrom start .between (encodeValue v ++ rest) =
      (decodeFrom (start + (encodeValue v).length) .between rest).map (Char.ofNat v :: ·) := by
  have hv : v < 0xD800 ∨ 0xDFFF < v ∧ v < 0x110000 := hv
  unfold encodeValue
  by_cases h1 : v ≤ 0x7F
  · simp only [if_pos h1, List.cons_append, List.nil_append, decodeFrom,
      toNat_ofNat_byte (show v < 256 by omega), first_of_one h1, if_true, List.length_singleton]
  by_cases h2 : v ≤ 0x7FF
  · simp only [if_neg h1, if_pos h2, List.cons_append, List.nil_append]
    rw [decodeFrom, toNat_ofNat_byte (by omega), first_of_two (by omega) h2]
    simp only [Nat.one_ne_zero, if_false]
    rw [decodeFrom_last (by omega) (by omega) (by omega),
      show v / 64 * 64 + (v % 0x40 + 0x80 - 0x80) = v by omega]
    rfl
  by_cases h3 : v ≤ 0xFFFF
  · obtain ⟨low, high, hf, hl, hh⟩ := first_of_three (Nat.not_le.1 h2) h3 (by omega)
    simp only [if_neg h1, if_neg h2, if_pos h3, List.cons_append, List.nil_append]
    rw [decodeFrom, toNat_ofNat_byte (by omega), hf]
    simp only [Nat.succ_ne_zero, if_false]
    rw [decodeFrom_more (by omega) hl hh, decodeFrom_last (by omega) (by omega) (by omega),
      show (v / 4096 * 64 + (v / 64 % 0x40 + 0x80 - 0x80)) * 64 + (v % 0x40 + 0x80 - 0x80) = v by
        omega]
    rfl
  · obtain ⟨low, high, hf, hl, hh⟩ := first_of_four (Nat.not_le.1 h3) (by omega)
    simp only [if_neg h1, if_neg h2, if_neg h3, List.cons_append, List.nil_append]
    rw [decodeFrom, toNat_ofNat_byte (by omega), hf]
    simp only [Nat.succ_ne_zero, if_false]
    rw [decodeFrom_more (by omega) hl hh, decodeFrom_more (by omega) (by omega) (by omega),
      decodeFrom_last (by omega) (by omega) (by omega),
      show ((v / 262144 * 64 + (v / 4096 % 0x40 + 0x80 - 0x80)) * 64 +
        (v / 64 % 0x40 + 0x80 - 0x80)) * 64 + (v % 0x40 + 0x80 - 0x80) = v by omega]
    rfl

/-- Reading the bytes of a text gives the text, and goes on behind it. -/
theorem decodeFrom_encode (s : List Char) :
    ∀ (start : Nat) (rest : List UInt8), decodeFrom start .between (encode s ++ rest) =
      (decodeFrom (start + (encode s).length) .between rest).map (s ++ ·) := by
  induction s with
  | nil =>
    intro start rest
    simp only [encode_nil, List.nil_append, List.length_nil, Nat.add_zero]
    cases decodeFrom start .between rest <;> rfl
  | cons c s ih =>
    intro start rest
    rw [encode_cons, List.append_assoc, utf8EncodeChar_eq,
      decodeFrom_value (v := c.toNat) start c.valid, ih,
      Char.ofNat_toNat, List.length_append, Nat.add_assoc]
    cases decodeFrom (start + ((encodeValue c.toNat).length + (encode s).length)) .between rest <;> rfl

theorem decode_encode (s : List Char) : decode (encode s) = .ok s := by
  have h := decodeFrom_encode s 0 []
  rw [List.append_nil] at h
  rw [decode, h]
  simp [decodeFrom, Except.map]

/-! ## Writing what was read -/

/-- Inside a character, what is accepted goes on with a byte in range, which
either ends the character or leaves the reader one byte deeper in it. -/
theorem decodeFrom_inside {start seen owed low high value : Nat} {bytes : List UInt8} {s : List Char}
    (h : decodeFrom start (.inside seen ⟨owed + 1, low, high, value⟩) bytes = .ok s) :
    ∃ b rest, bytes = b :: rest ∧ low ≤ b.toNat ∧ b.toNat ≤ high ∧
      ((owed = 0 ∧ ∃ s', s = Char.ofNat (value * 64 + (b.toNat - 0x80)) :: s' ∧
          decodeFrom (start + seen + 1) .between rest = .ok s') ∨
        (owed ≠ 0 ∧ decodeFrom start
          (.inside (seen + 1) ⟨owed, 0x80, 0xBF, value * 64 + (b.toNat - 0x80)⟩) rest = .ok s)) := by
  cases bytes with
  | nil => simp [decodeFrom] at h
  | cons b rest =>
    rw [decodeFrom] at h
    split at h
    · next hr =>
      refine ⟨b, rest, rfl, hr.1, hr.2, ?_⟩
      simp only [Open.push, Nat.add_sub_cancel] at h
      split at h
      · next h0 =>
        obtain ⟨s', hs, rfl⟩ := except_map_eq_ok h
        exact .inl ⟨h0, s', rfl, hs⟩
      · next h0 => exact .inr ⟨h0, h⟩
    · cases h

theorem toNat_ofNat_valid {v : Nat} (hv : v.isValidChar) : (Char.ofNat v).toNat = v := by
  rw [Char.ofNat, dif_pos hv]
  rfl

theorem byte_eq {b : UInt8} {n : Nat} (h : b.toNat = n) : UInt8.ofNat n = b := by
  rw [← h, UInt8.ofNat_toNat]

/-- The first character of what is accepted, and what is left. -/
theorem decodeFrom_between {start : Nat} {b : UInt8} {bytes : List UInt8} {s : List Char}
    (h : decodeFrom start .between (b :: bytes) = .ok s) :
    ∃ v rest start' s', v.isValidChar ∧ b :: bytes = encodeValue v ++ rest ∧
      s = Char.ofNat v :: s' ∧ decodeFrom start' .between rest = .ok s' := by
  rw [decodeFrom] at h
  split at h
  · cases h
  next o ho =>
  have hb := b.toNat_lt
  rcases first_cases ho with ⟨h1, rfl⟩ | ⟨k, hk, h2, h3, rfl⟩ |
    ⟨k, low, high, hk, h2, rfl, h3, h4, h5, h6⟩ |
    ⟨k, low, high, hk, h2, rfl, h3, h4, h5, h6⟩
  · obtain ⟨s', hs, rfl⟩ := except_map_eq_ok h
    refine ⟨b.toNat, bytes, _, s', .inl (by omega), ?_, rfl, hs⟩
    rw [encodeValue, if_pos (by omega), UInt8.ofNat_toNat]
    rfl
  · obtain ⟨b₁, r₁, rfl, hl₁, hh₁, ⟨-, s', rfl, hs⟩ | ⟨h0, -⟩⟩ := decodeFrom_inside h
    · refine ⟨k * 64 + (b₁.toNat - 0x80), r₁, _, s', .inl (by omega), ?_, rfl, hs⟩
      rw [encodeValue, if_neg (by omega), if_pos (by omega), byte_eq (b := b) (by omega),
        byte_eq (b := b₁) (by omega)]
      rfl
    · exact absurd rfl h0
  · obtain ⟨b₁, r₁, rfl, hl₁, hh₁, ⟨h0, -⟩ | ⟨-, h⟩⟩ := decodeFrom_inside h
    · cases h0
    obtain ⟨b₂, r₂, rfl, hl₂, hh₂, ⟨-, s', rfl, hs⟩ | ⟨h0, -⟩⟩ := decodeFrom_inside h
    · have hv : ((k * 64 + (b₁.toNat - 0x80)) * 64 + (b₂.toNat - 0x80)).isValidChar := by
        unfold Nat.isValidChar; omega
      refine ⟨_, r₂, _, s', hv, ?_, rfl, hs⟩
      rw [encodeValue, if_neg (by omega), if_neg (by omega), if_pos (by omega),
        byte_eq (b := b) (by omega), byte_eq (b := b₁) (by omega), byte_eq (b := b₂) (by omega)]
      rfl
    · exact absurd rfl h0
  · obtain ⟨b₁, r₁, rfl, hl₁, hh₁, ⟨h0, -⟩ | ⟨-, h⟩⟩ := decodeFrom_inside h
    · cases h0
    obtain ⟨b₂, r₂, rfl, hl₂, hh₂, ⟨h0, -⟩ | ⟨-, h⟩⟩ := decodeFrom_inside h
    · cases h0
    obtain ⟨b₃, r₃, rfl, hl₃, hh₃, ⟨-, s', rfl, hs⟩ | ⟨h0, -⟩⟩ := decodeFrom_inside h
    · have hv : (((k * 64 + (b₁.toNat - 0x80)) * 64 + (b₂.toNat - 0x80)) * 64 +
          (b₃.toNat - 0x80)).isValidChar := by
        unfold Nat.isValidChar; omega
      refine ⟨_, r₃, _, s', hv, ?_, rfl, hs⟩
      rw [encodeValue, if_neg (by omega), if_neg (by omega), if_neg (by omega),
        byte_eq (b := b) (by omega), byte_eq (b := b₁) (by omega), byte_eq (b := b₂) (by omega),
        byte_eq (b := b₃) (by omega)]
      rfl
    · exact absurd rfl h0

theorem encodeValue_ne_nil (v : Nat) : encodeValue v ≠ [] := by
  unfold encodeValue
  split
  · simp
  split
  · simp
  split <;> simp

theorem encode_of_decodeFrom (n : Nat) :
    ∀ (bytes : List UInt8), bytes.length ≤ n → ∀ (start : Nat) (s : List Char),
      decodeFrom start .between bytes = .ok s → encode s = bytes := by
  induction n with
  | zero =>
    intro bytes hn start s h
    rw [List.length_eq_zero_iff.1 (Nat.le_zero.1 hn)] at h ⊢
    cases h
    rfl
  | succ n ih =>
    intro bytes hn start s h
    cases bytes with
    | nil => cases h; rfl
    | cons b bytes =>
      obtain ⟨v, rest, start', s', hv, he, rfl, hs⟩ := decodeFrom_between h
      have hlen : rest.length ≤ n := by
        have h1 := congrArg List.length he
        have h2 := List.length_pos_iff.2 (encodeValue_ne_nil v)
        simp only [List.length_cons, List.length_append] at h1 hn
        omega
      rw [encode_cons, utf8EncodeChar_eq, toNat_ofNat_valid hv, ih rest hlen start' s' hs, he]

/-- Only the bytes of a text are accepted. -/
theorem encode_of_decode {bytes : List UInt8} {s : List Char} (h : decode bytes = .ok s) :
    encode s = bytes :=
  encode_of_decodeFrom _ bytes (Nat.le_refl _) 0 s h

theorem decode_eq_ok_iff {bytes : List UInt8} {s : List Char} :
    decode bytes = .ok s ↔ bytes = encode s :=
  ⟨fun h => (encode_of_decode h).symm, fun h => h ▸ decode_encode s⟩

/-! ## Texts that have room -/

theorem fit_of_length_le {s : List Char} : ∀ {room : Nat}, (encode s).length ≤ room → fit room s = s := by
  induction s with
  | nil => intro room _; rfl
  | cons c s ih =>
    intro room h
    rw [encode_cons, List.length_append, String.length_utf8EncodeChar] at h
    rw [fit, if_pos (by omega), ih (by omega)]

end Utf8
end PageStore
