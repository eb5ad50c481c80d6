import PageStore.Proofs.Page.Sound

/-!
# Pages and their bytes

The image of a sound page is the header, the slots one after another, and
zeros. Every part has a width that size and layout fix, so a reader finds
each part where the writer put it.

Results:
* `image_congr`: what a page shows and the width of its rows decide about its image.
* `length_image`: the image has as many bytes as the page size.
* `decode_image`: the image is read back as the page, clean, with every row
  under the page's own layout; so its grid is the same.
-/
namespace PageStore.Page

theorem length_slotBytes {p : Page} (hp : p.Sound) {s : Option Tuple} (hs : s ∈ p.slots) :
    (slotBytes p.layout.width s).length = p.layout.width := by
  cases s with
  | none => simp [slotBytes]
  | some t =>
    obtain ⟨i, hi⟩ := List.getElem?_of_mem hs
    obtain ⟨-, hl, ht⟩ := hp.row i t hi
    exact Tuple.length_encode (ht.types.trans hl)

/-- Parts of one width lie at multiples of it. -/
theorem part_flatMap {α : Type} {f : α → List UInt8} {width : Nat} (rest : List UInt8) :
    ∀ {xs : List α} {i : Nat} {x : α}, (∀ y ∈ xs, (f y).length = width) → xs[i]? = some x →
      ((xs.flatMap f ++ rest).drop (i * width)).take width = f x
  | [], i, x, _, hx => by simp at hx
  | y :: xs, 0, x, hw, hx => by
    cases hx
    rw [Nat.zero_mul, List.drop_zero, List.flatMap_cons, List.append_assoc,
      List.take_left' (hw y List.mem_cons_self)]
  | y :: xs, i + 1, x, hw, hx => by
    rw [List.flatMap_cons, List.append_assoc, Nat.succ_mul, Nat.add_comm, ← List.drop_drop,
      List.drop_left' (hw y List.mem_cons_self)]
    exact part_flatMap rest (fun z hz => hw z (List.mem_cons_of_mem _ hz)) hx

theorem length_flatMap_of_const {α : Type} {f : α → List UInt8} {width : Nat} :
    ∀ {xs : List α}, (∀ y ∈ xs, (f y).length = width) → (xs.flatMap f).length = xs.length * width
  | [], _ => by simp
  | y :: xs, hw => by
    rw [List.flatMap_cons, List.length_append, hw y List.mem_cons_self,
      length_flatMap_of_const fun z hz => hw z (List.mem_cons_of_mem _ hz), List.length_cons,
      Nat.succ_mul, Nat.add_comm]

section
variable {p : Page}

/-- Bitmap and slots leave room for the checksum. -/
theorem length_used (hp : p.Sound) :
    (p.header.bitmap ++ p.slots.flatMap (slotBytes p.layout.width)).length =
      Geometry.bitmapWidth p.slots.length + p.slots.length * p.layout.width := by
  rw [List.length_append, (tidy_header p).length, slots_header,
    length_flatMap_of_const fun s hs => length_slotBytes hp hs]

theorem length_image (hp : p.Sound) (hsize : Geometry.checksumWidth ≤ p.size) :
    p.image.length = p.size := by
  have hfit := Geometry.headerWidth_add_le p.layout.width hsize
  rw [← hp.length] at hfit
  rw [image, body, List.length_append, Word.length_little, List.length_append, length_used hp,
    List.length_replicate]
  unfold Geometry.headerWidth Geometry.checksumWidth at *
  omega

theorem markUsed_congr : ∀ {ss us : List (Option Tuple)} (i : Nat) (h : Header),
    ss.map Option.isSome = us.map Option.isSome → markUsed i ss h = markUsed i us h
  | [], [], _, _, _ => rfl
  | s :: ss, u :: us, i, h, he => by
    simp only [List.map_cons, List.cons.injEq] at he
    rw [markUsed, markUsed, he.1, markUsed_congr (i + 1) _ he.2]

/-- What a page shows, and the width of its rows, determine its bytes. -/
theorem image_congr {p q : Page} (hsize : p.size = q.size) (hwidth : p.layout.width = q.layout.width)
    (hgrid : p.grid = q.grid) : p.image = q.image := by
  have hused : p.slots.map Option.isSome = q.slots.map Option.isSome := by
    have h := congrArg (List.map Option.isSome) hgrid
    simpa [grid, Function.comp_def] using h
  have hheader : p.header = q.header := by
    rw [header, header, markUsed_congr 0 _ hused]
    congr 2
    simpa using congrArg List.length hused
  have hslots : ∀ (width : Nat) (r : Page), r.slots.flatMap (slotBytes width) =
      r.grid.flatMap fun s => s.elim (List.replicate width 0) (·.flatMap Field.encode) := by
    intro width r
    rw [grid, List.flatMap_map]
    congr 1
    funext s
    cases s <;> rfl
  have hbody : p.body = q.body := by
    rw [body, body, hheader, hsize, hwidth, hslots, hslots, hgrid]
  rw [image, image, hbody]

/-- The page as bytes is its image. -/
theorem encode_eq (hp : p.Sound) (hsize : Geometry.checksumWidth ≤ p.size) :
    p.encode = .ok p.image := by
  have hfit := Geometry.headerWidth_add_le p.layout.width hsize
  rw [← hp.length] at hfit
  exact if_neg (by omega)

/-- The header as it stands in the image. -/
def sealed (p : Page) : Header := { p.header with checksum := Checksum.crc32 p.body }

theorem tidy_sealed (p : Page) : p.sealed.Tidy := ⟨(tidy_header p).length, (tidy_header p).clear⟩

theorem slots_sealed (p : Page) : p.sealed.slots = p.slots.length := slots_header p

theorem isUsed_sealed (p : Page) (i : Nat) : p.sealed.isUsed i = (p.slots[i]?).join.isSome :=
  isUsed_header p i

theorem image_eq (p : Page) :
    ∃ pad, p.image = p.sealed.encode ++ (p.slots.flatMap (slotBytes p.layout.width) ++ pad) := by
  have hb : ∃ pad, p.body = p.header.bitmap ++ p.slots.flatMap (slotBytes p.layout.width) ++ pad :=
    ⟨_, rfl⟩
  obtain ⟨pad, hb⟩ := hb
  have hi : p.image = Word.little p.sealed.checksum ++ p.body := rfl
  exact ⟨pad, by rw [hi, hb, Header.encode, sealed]; simp only [List.append_assoc]⟩

theorem slotAt_image (hp : p.Sound) {i : Nat} {s : Option Tuple} (hs : p.slots[i]? = some s) :
    slotAt p.image p.slots.length p.layout.width i = slotBytes p.layout.width s := by
  obtain ⟨pad, he⟩ := image_eq p
  have hl : p.sealed.encode.length = Geometry.headerWidth p.slots.length := by
    rw [Header.encode, List.length_append, Word.length_little, (tidy_sealed p).length, slots_sealed]
    rfl
  rw [slotAt, he, ← List.drop_drop, List.drop_left' hl]
  exact part_flatMap pad (fun s hs => length_slotBytes hp hs) hs

/-- The page as it is read back: clean, and every row under the page's layout. -/
def asStored (p : Page) : Page :=
  { p with
    slots := p.slots.map (Option.map fun t => { t with layout := p.layout })
    dirtier := none }

theorem grid_asStored (p : Page) : p.asStored.grid = p.grid := by
  simp only [grid, asStored, List.map_map]
  refine List.map_congr_left fun s _ => ?_
  cases s <;> rfl

theorem decodeSlot_image (hp : p.Sound) {i : Nat} {s : Option Tuple} (hs : p.slots[i]? = some s) :
    decodeSlot p.id p.layout p.sealed p.image i =
      .ok (s.map fun t => { t with layout := p.layout }) := by
  unfold decodeSlot
  rw [isUsed_sealed, hs, slots_sealed, slotAt_image hp hs]
  cases s with
  | none => rfl
  | some t =>
    obtain ⟨hr, hl, ht⟩ := hp.row i t hs
    have hd := Tuple.decodeFields_encode ht.fits []
    rw [List.append_nil, ht.types, hl] at hd
    simp only [Option.join_some, Option.isSome_some, if_true, slotBytes, Tuple.decode, Tuple.encode, hd,
      Except.map, hr, Option.map_some]

theorem decodeSlots_image (hp : p.Sound) :
    ∀ (n k : Nat), n + k = p.slots.length →
      decodeSlots p.id p.layout p.sealed p.image (List.range' n k) =
        .ok ((p.slots.drop n).map (Option.map fun t => { t with layout := p.layout }))
  | n, 0, h => by
    rw [List.drop_eq_nil_of_le (by omega)]
    rfl
  | n, k + 1, h => by
    have hn : n < p.slots.length := by omega
    rw [List.range'_succ, decodeSlots, decodeSlot_image hp (List.getElem?_eq_getElem hn)]
    dsimp only
    rw [decodeSlots_image hp (n + 1) k (by omega), List.drop_eq_getElem_cons hn]
    rfl

theorem verifies_sealed (p : Page) : p.sealed.verifies p.image = true := by
  have h : Header.checksumOf p.image = Checksum.crc32 p.body := by
    rw [Header.checksumOf, image,
      List.drop_left' (show (Word.little _).length = Geometry.checksumWidth from rfl)]
  simp [Header.verifies, h, sealed]

/-- **Round trip.** What was written is read back. -/
theorem decode_image (hp : p.Sound) (hsize : Geometry.checksumWidth ≤ p.size) :
    decode p.id p.layout p.size p.image = .ok p.asStored := by
  obtain ⟨pad, he⟩ := image_eq p
  have hh : Header.decode p.image (Geometry.slotCount p.size p.layout.width) = .ok p.sealed := by
    have := Header.decode_encode (tidy_sealed p) (p.slots.flatMap (slotBytes p.layout.width) ++ pad)
    rwa [← he, slots_sealed, hp.length] at this
  have hs := decodeSlots_image hp 0 p.slots.length (by omega)
  rw [← List.range_eq_range', List.drop_zero] at hs
  unfold decode decodeBody
  rw [if_neg (by rw [length_image hp hsize]; simp), hh]
  simp only [verifies_sealed, if_true, slots_sealed, hs]
  rfl

end

end PageStore.Page
