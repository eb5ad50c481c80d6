import PageStore.Proofs.Bytes.Checksum
import PageStore.Proofs.Page.Reading

/-!
# Pages with one changed byte

A stored page begins with the checksum of the bytes after it. Whoever changes
one of those bytes changes their checksum, and the page is refused when it is
read, unless the checksum in front is zero: a zero is never compared. It is
meant for pages that were never checksummed, but the checksum of a page that
was can be zero too, and then nothing but the format of the changed bytes
decides whether they are read.

Results:
* `corrupted_refused_or_unsealed`: what reading makes of a page with one changed byte.
* `exists_corruption_unnoticed`: a page whose checksum is zero, read with a changed row.
-/
namespace PageStore.Page

/-- The bytes of a page begin with the checksum of the rest. -/
theorem exists_body {p : Page} {bytes : List UInt8} (h : p.encode = .ok bytes) :
    ∃ body, bytes = Word.little (Checksum.crc32 body) ++ body := by
  unfold encode at h
  split at h
  · cases h
  · cases h
    exact ⟨p.body, rfl⟩

theorem littleAt_little (w : UInt32) (rest : List UInt8) :
    Word.littleAt (Word.little w ++ rest) = w.toNat := by
  have hlen : 4 ≤ (Word.little w ++ rest).length := by
    rw [List.length_append, Word.length_little]
    omega
  rw [← Word.toNat_ofLittle hlen, Word.ofLittle_little]

theorem drop_little (w : UInt32) (rest : List UInt8) :
    (Word.little w ++ rest).drop Geometry.checksumWidth = rest :=
  List.drop_left' (Word.length_little w)

/-- A byte after the checksum is a byte of the rest. -/
theorem set_append_little (w : UInt32) (rest : List UInt8) {k : Nat} (hk : Geometry.checksumWidth ≤ k)
    (b : UInt8) : (Word.little w ++ rest).set k b =
      Word.little w ++ rest.set (k - Geometry.checksumWidth) b := by
  rw [List.set_append_right _ _ (by rwa [Word.length_little])]
  rfl

/-- After one byte was changed, the checksum in front is that of the bytes
after it only if it is zero, which is never compared. -/
theorem checksumHolds_set_iff {body : List UInt8} {k : Nat} {b : UInt8}
    (hk : Geometry.checksumWidth ≤ k)
    (hlt : k < (Word.little (Checksum.crc32 body) ++ body).length)
    (hb : (Word.little (Checksum.crc32 body) ++ body)[k]? ≠ some b) :
    Header.ChecksumHolds ((Word.little (Checksum.crc32 body) ++ body).set k b) ↔
      Checksum.crc32 body = 0 := by
  have hplace : k - Geometry.checksumWidth < body.length := by
    rw [List.length_append, Word.length_little] at hlt
    unfold Geometry.checksumWidth at *
    omega
  have hbyte : body[k - Geometry.checksumWidth]? ≠ some b := by
    rwa [List.getElem?_append_right (by rwa [Word.length_little])] at hb
  have hne := Checksum.crc32_set_ne hplace hbyte
  rw [set_append_little _ _ hk, Header.ChecksumHolds, littleAt_little, drop_little]
  constructor
  · rintro (h | h)
    · exact UInt32.toNat_inj.1 h
    · exact absurd (UInt32.toNat_inj.1 h).symm hne
  · intro h
    exact .inl (by rw [h]; rfl)

/-- A page of one slot that holds one integer. -/
def pageOf (n : Int32) : Page :=
  ⟨⟨.numbered 1, 0⟩, Layout.ofTypes [.int], 9,
    [some ⟨Layout.ofTypes [.int], [.int n], some ⟨⟨.numbered 1, 0⟩, 0⟩⟩], none⟩

/-- The integer that makes the checksum of its page zero. -/
def unsealing : Int32 := -2032804664

/-- A stored page with one changed byte after its checksum is refused for its
format, unless its checksum happens to be zero; then the changed bytes are read
whenever they are legible. -/
theorem corrupted_refused_or_unsealed {p : Page} {bytes : List UInt8} (he : p.encode = .ok bytes)
    {k : Nat} {b : UInt8} (hk : 4 ≤ k) (hlt : k < bytes.length) (hb : bytes[k]? ≠ some b) :
    (Checksum.crc32 (bytes.drop 4) ≠ 0 →
        ∃ reason, decode p.id p.layout p.size (bytes.set k b) = .error (.format p.id reason)) ∧
      (Checksum.crc32 (bytes.drop 4) = 0 →
        ((∃ q, decode p.id p.layout p.size (bytes.set k b) = .ok q) ↔
          Legible p.layout p.size (bytes.set k b))) := by
  obtain ⟨body, rfl⟩ := exists_body he
  have hsum := checksumHolds_set_iff hk hlt hb
  have hdrop : (Word.little (Checksum.crc32 body) ++ body).drop 4 = body := drop_little _ _
  rw [hdrop]
  constructor
  · intro hne
    cases hd : decode p.id p.layout p.size
        ((Word.little (Checksum.crc32 body) ++ body).set k b) with
    | ok q => exact absurd (hsum.1 (decode_isOk_iff.1 ⟨q, hd⟩).checksum) hne
    | error e =>
      obtain ⟨reason, rfl⟩ := decode_eq_error hd
      exact ⟨reason, rfl⟩
  · intro h0
    rw [decode_isOk_iff]
    exact ⟨fun h => h.legible, fun h => ⟨h, hsum.2 h0⟩⟩

theorem corrupted_refused_or_unsealed_pageOf :
    (pageOf 5).encode = .ok (pageOf 5).image ∧ (pageOf 5).image[8]? ≠ some 6 ∧
      (∃ reason, decode (pageOf 5).id (pageOf 5).layout (pageOf 5).size ((pageOf 5).image.set 8 6) =
        .error (.format (pageOf 5).id reason)) ∧
      (pageOf unsealing).encode = .ok (pageOf unsealing).image ∧
      (pageOf unsealing).image[8]? ≠ some 0xC9 ∧
      Legible (pageOf unsealing).layout (pageOf unsealing).size
        ((pageOf unsealing).image.set 8 0xC9) := by
  have hsealed : (pageOf 5).image[8]? ≠ some 6 := by decide +kernel
  have hunsealed : (pageOf unsealing).image[8]? ≠ some 0xC9 := by decide +kernel
  have hread : decode (pageOf unsealing).id (pageOf unsealing).layout (pageOf unsealing).size
      ((pageOf unsealing).image.set 8 0xC9) = .ok (pageOf (unsealing + 1)) := by decide +kernel
  exact ⟨rfl, hsealed,
    (corrupted_refused_or_unsealed rfl (by decide) (by decide +kernel) hsealed).1 (by decide +kernel),
    rfl, hunsealed,
    ((corrupted_refused_or_unsealed rfl (by decide) (by decide +kernel) hunsealed).2
      (by decide +kernel)).1 ⟨_, hread⟩⟩

/-- The page with this integer is read with another one in its place, after the
last byte of it was changed: corruption that nobody notices. -/
theorem exists_corruption_unnoticed :
    ¬∀ (p : Page) (bytes : List UInt8) (k : Nat) (b : UInt8), p.encode = .ok bytes → 4 ≤ k →
      k < bytes.length → bytes[k]? ≠ some b →
        ∃ reason, decode p.id p.layout p.size (bytes.set k b) = .error (.format p.id reason) := by
  intro h
  obtain ⟨reason, hr⟩ :=
    h (pageOf unsealing) _ 8 0xC9 rfl (by decide) (by decide +kernel) (by decide +kernel)
  have hd : decode (pageOf unsealing).id (pageOf unsealing).layout (pageOf unsealing).size
      ((pageOf unsealing).image.set 8 0xC9) = .ok (pageOf (unsealing + 1)) := by decide +kernel
  cases hd.symm.trans hr

end PageStore.Page
