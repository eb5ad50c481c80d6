import PageStore.Proofs.Row.RoundTrip

/-!
# A text that is too long is cut between two characters

The writer looks for the place to cut from behind: it starts at the last byte
that has room and goes back until a character starts. The first byte of a
character never looks like a later one, so the search stops exactly where the
last character that has room ends.

Results:
* `Utf8.floorBoundary_encode`: the boundary that is found lies behind the
  characters that `Utf8.fit` keeps.
* `Utf8.prefix_fit`: `Utf8.fit` keeps as many characters as have room.
* `Field.write_eq`: writing a value appends its bytes to the buffer.
* `Field.write_truncates`: what is appended for a text, and what is read from it.
-/
namespace PageStore

namespace Utf8

/-! ## Where characters start -/

theorem starts_ofNat {n : Nat} (h : n < 256) :
    starts (UInt8.ofNat n) = decide (n < 0x80 ∨ 0xC0 ≤ n) := by
  simp [starts, toNat_ofNat_byte h]

/-- The first byte of a character can start one, and its other bytes cannot. -/
theorem utf8EncodeChar_eq_cons (c : Char) :
    ∃ b later, String.utf8EncodeChar c = b :: later ∧ starts b = true ∧
      ∀ b' ∈ later, starts b' = false := by
  have hv : c.toNat < 0xD800 ∨ 0xDFFF < c.toNat ∧ c.toNat < 0x110000 := c.valid
  -- every later byte holds six bits below the mark `0x80`
  have low (n : Nat) : starts (UInt8.ofNat (n % 0x40 + 0x80)) = false := by
    rw [starts_ofNat (by omega)]
    simp
    omega
  rw [utf8EncodeChar_eq, encodeValue]
  split
  · refine ⟨_, _, rfl, ?_, by simp⟩
    rw [starts_ofNat (by omega)]
    simp
    omega
  split
  · refine ⟨_, _, rfl, ?_, List.forall_mem_singleton.2 (low _)⟩
    rw [starts_ofNat (by omega)]
    simp
  split
  · refine ⟨_, _, rfl, ?_, List.forall_mem_cons.2 ⟨low _, List.forall_mem_singleton.2 (low _)⟩⟩
    rw [starts_ofNat (by omega)]
    simp
  · refine ⟨_, _, rfl, ?_, List.forall_mem_cons.2 ⟨low _, List.forall_mem_cons.2
      ⟨low _, List.forall_mem_singleton.2 (low _)⟩⟩⟩
    rw [starts_ofNat (by omega)]
    simp

/-- What follows whole characters: nothing, or a byte that can start one. -/
def Fresh (rest : List UInt8) : Prop := ∀ b ∈ rest.head?, starts b = true

theorem fresh_encode (s : List Char) : Fresh (encode s) := by
  cases s with
  | nil => simp [Fresh]
  | cons c s =>
    obtain ⟨b, later, he, hb, -⟩ := utf8EncodeChar_eq_cons c
    simp [Fresh, he, hb]

/-! ## The search for a boundary -/

theorem floorBoundary_eq {bytes : List UInt8} {n : Nat} (h : isBoundary bytes n = true) :
    floorBoundary bytes n = n := by
  cases n with
  | zero => rfl
  | succ n => rw [floorBoundary, if_pos h]

theorem isBoundary_inside {b : UInt8} {later rest : List UInt8} {n : Nat}
    (hl : ∀ b' ∈ later, starts b' = false) (hn : n < later.length) :
    isBoundary (b :: later ++ rest) (n + 1) = false := by
  have hat : (b :: later ++ rest)[n + 1]? = some later[n] := by
    simp [List.getElem?_append_left hn]
  rw [isBoundary, if_neg n.succ_ne_zero, hat]
  exact hl _ (List.getElem_mem hn)

theorem floorBoundary_inside {b : UInt8} {later : List UInt8} (rest : List UInt8) {n : Nat}
    (hl : ∀ b' ∈ later, starts b' = false) (hn : n ≤ later.length) :
    floorBoundary (b :: later ++ rest) n = 0 := by
  induction n with
  | zero => rfl
  | succ n ih => rw [floorBoundary, isBoundary_inside hl hn, if_neg Bool.false_ne_true, ih (by omega)]

theorem isBoundary_behind {front rest : List UInt8} (hr : Fresh rest) (n : Nat) :
    isBoundary (front ++ rest) (front.length + n) = isBoundary rest n := by
  have hat : (front ++ rest)[front.length + n]? = rest[n]? := by
    rw [List.getElem?_append_right (by omega), Nat.add_sub_cancel_left]
  cases n with
  | zero =>
    cases rest with
    | nil => simp [isBoundary]
    | cons b rest =>
      have hb : starts b = true := hr b rfl
      simp [isBoundary, hb]
  | succ n =>
    rw [isBoundary, isBoundary, hat, if_neg (by omega), if_neg (by omega), List.length_append]
    cases rest[n + 1]? with
    | none =>
      rw [Bool.eq_iff_iff, beq_iff_eq, beq_iff_eq]
      omega
    | some b => rfl

theorem floorBoundary_behind {front rest : List UInt8} (hr : Fresh rest) (n : Nat) :
    floorBoundary (front ++ rest) (front.length + n) = front.length + floorBoundary rest n := by
  induction n with
  | zero => exact floorBoundary_eq (isBoundary_behind hr 0)
  | succ n ih =>
    rw [← Nat.add_assoc, floorBoundary, Nat.add_assoc, isBoundary_behind hr, ih, floorBoundary]
    split <;> rfl

/-- The boundary found at or before byte `n` lies behind the characters that fit
into `n` bytes. -/
theorem floorBoundary_encode (s : List Char) :
    ∀ n : Nat, floorBoundary (encode s) n = (encode (fit n s)).length := by
  induction s with
  | nil =>
    intro n
    induction n with
    | zero => rfl
    | succ n ih =>
      rw [floorBoundary, if_neg (by simp [isBoundary])]
      exact ih
  | cons c s ih =>
    intro n
    obtain ⟨b, later, he, -, hl⟩ := utf8EncodeChar_eq_cons c
    have hlen : later.length + 1 = c.utf8Size := by
      rw [← String.length_utf8EncodeChar, he, List.length_cons]
    rw [fit, encode_cons]
    by_cases hn : c.utf8Size ≤ n
    · obtain ⟨m, rfl⟩ := Nat.exists_eq_add_of_le hn
      rw [if_pos hn, Nat.add_sub_cancel_left, length_encode_cons, ← ih m,
        ← String.length_utf8EncodeChar c, floorBoundary_behind (fresh_encode s)]
    · rw [if_neg hn, he, floorBoundary_inside _ hl (by omega)]
      rfl

/-- What is kept is the longest beginning of the text that has room. -/
theorem prefix_fit {s t : List Char} (hs : s <+: t) :
    ∀ {room : Nat}, (encode s).length ≤ room → s <+: fit room t := by
  induction s generalizing t with
  | nil => intro room _; exact List.nil_prefix
  | cons c s ih =>
    intro room hr
    obtain ⟨cut, rfl⟩ := hs
    rw [length_encode_cons] at hr
    rw [List.cons_append, fit, if_pos (by omega)]
    exact (List.prefix_cons_inj c).2 (ih (List.prefix_append s cut) (by omega))

theorem fit_prefix (room : Nat) (s : List Char) : fit room s <+: s := fit_append room s

theorem take_length_fit (room : Nat) (s : List Char) :
    (encode s).take (encode (fit room s)).length = encode (fit room s) := by
  obtain ⟨cut, h⟩ := fit_append room s
  rw [← congrArg encode h, encode_append, List.take_left]

/-- The size of a text is the number of its bytes. -/
theorem utf8ByteSize_eq (s : String) : s.utf8ByteSize = (encode s.toList).length := by
  rw [← String.size_toByteArray, ← String.utf8Encode_toList, List.utf8Encode, List.size_toByteArray]
  rfl

end Utf8

namespace Field

theorem cut_eq (s : String) : cut s = stored s := by
  simp only [cut, stored]
  split
  · next h => rw [Utf8.fit_of_length_le h]
  · rw [Utf8.floorBoundary_encode, Utf8.take_length_fit]

/-- Writing a value appends its bytes. -/
theorem write_eq (f : Field) (out : List UInt8) : f.write out = out ++ f.encode := by
  cases f with
  | int n => rfl
  | text s =>
    have hs := length_stored s
    simp only [write, encode, resize, cut_eq]
    rw [List.take_of_length_le (by omega)]
    simp only [List.length_append, Word.length_big, List.append_assoc]
    congr 4
    omega

/-- Writing a text appends the 132 bytes of its type and leaves the earlier
bytes as they are. Reading those, whatever follows, gives the longest beginning
of the text that consists of whole characters and takes at most 128 bytes; this
is the whole text exactly if the text takes no more. -/
theorem write_truncates (s : String) (out rest : List UInt8) :
    ((text s).write out).length = out.length + 132 ∧
      ((text s).write out).take out.length = out ∧
      ∃ kept : String,
        decode .text (((text s).write out).drop out.length ++ rest) = .ok (.text kept) ∧
        kept.toList <+: s.toList ∧ kept.utf8ByteSize ≤ 128 ∧
        (∀ other : String, other.toList <+: s.toList → other.utf8ByteSize ≤ 128 →
          other.toList <+: kept.toList) ∧
        (kept = s ↔ s.utf8ByteSize ≤ 128) := by
  have hlen : (text s).encode.length = 132 := length_encode (text s)
  rw [write_eq]
  refine ⟨by rw [List.length_append, hlen], List.take_left, String.ofList (Utf8.fit 128 s.toList),
    ?_, ?_, ?_,
    ?_, ?_⟩
  · rw [List.drop_left]
    exact decode_stored s rest
  · rw [String.toList_ofList]
    exact Utf8.fit_prefix 128 s.toList
  · rw [Utf8.utf8ByteSize_eq, String.toList_ofList]
    exact Utf8.length_encode_fit 128 s.toList
  · intro other hp hsize
    rw [Utf8.utf8ByteSize_eq] at hsize
    rw [String.toList_ofList]
    exact Utf8.prefix_fit hp hsize
  · rw [Utf8.utf8ByteSize_eq]
    constructor
    · intro hk
      rw [← hk, String.toList_ofList]
      exact Utf8.length_encode_fit 128 s.toList
    · intro h
      rw [Utf8.fit_of_length_le h, String.ofList_toList]

end Field
end PageStore
