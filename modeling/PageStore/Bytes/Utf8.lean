import PageStore.Error

/-!
# Texts as UTF-8 bytes

`encode` writes the bytes of a text and `decode` reads them back, refusing
everything that is not UTF-8 (overlong forms, surrogates, values past the last
code point). A refusal names the byte at which the refused character starts,
and how many bytes had been read of it before the one that does not fit.

Results:
* `length_encode_cons`: a text takes as many bytes as its characters do.
* `fit_append`, `length_encode_fit`: `fit` keeps a text's beginning, and what
  it keeps takes no more than the room given.
-/
namespace PageStore.Utf8

def encode (s : List Char) : List UInt8 := s.flatMap String.utf8EncodeChar

/-- A character begun and not yet finished: the bytes it still takes, the range
of the next of them, and the value so far. -/
structure Open where
  owed : Nat
  low : Nat
  high : Nat
  value : Nat
  deriving DecidableEq, Repr

/-- What a character's first byte says about the rest of it. -/
def first (b : Nat) : Option Open :=
  if b < 0x80 then some ⟨0, 0, 0, b⟩
  else if b < 0xC2 then none
  else if b < 0xE0 then some ⟨1, 0x80, 0xBF, b - 0xC0⟩
  else if b = 0xE0 then some ⟨2, 0xA0, 0xBF, 0⟩
  else if b = 0xED then some ⟨2, 0x80, 0x9F, 0xD⟩
  else if b < 0xF0 then some ⟨2, 0x80, 0xBF, b - 0xE0⟩
  else if b = 0xF0 then some ⟨3, 0x90, 0xBF, 0⟩
  else if b < 0xF4 then some ⟨3, 0x80, 0xBF, b - 0xF0⟩
  else if b = 0xF4 then some ⟨3, 0x80, 0x8F, 4⟩
  else none

/-- The character after one more of its bytes. -/
def Open.push (o : Open) (b : Nat) : Open :=
  ⟨o.owed - 1, 0x80, 0xBF, o.value * 64 + (b - 0x80)⟩

/-- Where a reader stands: between characters, or `seen` bytes into one. -/
inductive Place
  | between
  | inside (seen : Nat) (o : Open)
  deriving DecidableEq, Repr

/-- Reads on from a place; `start` is the byte at which the current character starts. -/
def decodeFrom (start : Nat) : Place → List UInt8 → Except Utf8Error (List Char)
  | .between, [] => .ok []
  | .inside _ _, [] => .error ⟨start, none⟩
  | .between, b :: rest =>
    match first b.toNat with
    | none => .error ⟨start, some 1⟩
    | some o =>
      if o.owed = 0 then (decodeFrom (start + 1) .between rest).map (Char.ofNat o.value :: ·)
      else decodeFrom start (.inside 1 o) rest
  | .inside seen o, b :: rest =>
    if o.low ≤ b.toNat ∧ b.toNat ≤ o.high then
      let o := o.push b.toNat
      if o.owed = 0 then
        (decodeFrom (start + seen + 1) .between rest).map (Char.ofNat o.value :: ·)
      else decodeFrom start (.inside (seen + 1) o) rest
    else .error ⟨start, some seen⟩

/-- The text whose bytes these are. -/
def decode (bytes : List UInt8) : Except Utf8Error (List Char) := decodeFrom 0 .between bytes

/-- The longest beginning of a text that takes at most `room` bytes. -/
def fit (room : Nat) : List Char → List Char
  | [] => []
  | c :: s => if c.utf8Size ≤ room then c :: fit (room - c.utf8Size) s else []

/-- Whether a character can start with the byte. The others are later bytes of
a character. -/
def starts (b : UInt8) : Bool := b.toNat < 0x80 || 0xC0 ≤ b.toNat

/-- Whether the bytes of a text can be cut before byte `n` without splitting a character. -/
def isBoundary (bytes : List UInt8) (n : Nat) : Bool :=
  if n = 0 then true
  else
    match bytes[n]? with
    | none => n == bytes.length
    | some b => starts b

/-- The last boundary at or before byte `n`. -/
def floorBoundary (bytes : List UInt8) : Nat → Nat
  | 0 => 0
  | n + 1 => if isBoundary bytes (n + 1) then n + 1 else floorBoundary bytes n

@[simp] theorem encode_nil : encode [] = [] := rfl

@[simp] theorem encode_cons (c : Char) (s : List Char) :
    encode (c :: s) = String.utf8EncodeChar c ++ encode s := rfl

@[simp] theorem encode_append (s t : List Char) : encode (s ++ t) = encode s ++ encode t := by
  simp [encode]

theorem length_encode_cons (c : Char) (s : List Char) :
    (encode (c :: s)).length = c.utf8Size + (encode s).length := by
  rw [encode_cons, List.length_append, String.length_utf8EncodeChar]

/-- What is kept is a beginning of the text. -/
theorem fit_append (room : Nat) (s : List Char) : ∃ cut, fit room s ++ cut = s := by
  induction s generalizing room with
  | nil => exact ⟨[], rfl⟩
  | cons c s ih =>
    unfold fit
    split
    · obtain ⟨cut, h⟩ := ih (room - c.utf8Size)
      exact ⟨cut, by simp [h]⟩
    · exact ⟨c :: s, rfl⟩

theorem length_encode_fit (room : Nat) (s : List Char) : (encode (fit room s)).length ≤ room := by
  induction s generalizing room with
  | nil => simp [fit]
  | cons c s ih =>
    unfold fit
    split
    · have := ih (room - c.utf8Size)
      rw [length_encode_cons]
      omega
    · simp

end PageStore.Utf8
