import PageStore.Proofs.Page.RoundTrip

/-!
# Pages in use

A page starts empty and changes by calls. A call that fails leaves the page as it
was, and one that succeeds touches one slot, so a page keeps its shape and stays
sound whatever is called, in whatever order. That is all a reader of its bytes
needs, so every page that calls can lead to is read back from its bytes, whichever
slots are free.

Results:
* `Sound.after`, `sound_afterAll`: calls keep pages sound.
* `decode_encode_afterAll`: a page in use has bytes, of the page size, and they are
  read back as the page, clean, every row with the record id of its slot.
-/
namespace PageStore.Page

/-- A call on a page. A row to insert was made of values that follow its layout and
fit; it need not suit the page. A record to delete can be any, or none. -/
inductive Call
  | insert (t : Tuple) (made : (Tuple.make? t.layout t.fields).isSome)
  | delete (record : Option RecordId)
  | mark (txn : Option TxnId)

/-- The page after a call. -/
def after (p : Page) : Call → Page
  | .insert t _ =>
    match p.insert t with
    | .ok (q, _) => q
    | .error _ => p
  | .delete record =>
    match p.delete record with
    | .ok q => q
    | .error _ => p
  | .mark txn => p.withDirtier txn

def afterAll (p : Page) (calls : List Call) : Page := calls.foldl after p

/-- What no call changes. -/
structure SameShape (p q : Page) : Prop where
  id : q.id = p.id
  layout : q.layout = p.layout
  size : q.size = p.size

theorem sameShape_after (p : Page) (call : Call) : SameShape p (p.after call) := by
  cases call with
  | insert t made =>
    rw [after]
    split
    · next q r h =>
      obtain ⟨slot, -, -, -, rfl⟩ := insert_eq_ok h
      exact ⟨rfl, rfl, rfl⟩
    · exact ⟨rfl, rfl, rfl⟩
  | delete record =>
    rw [after]
    split
    · next q h =>
      obtain ⟨r, -, -, -, rfl⟩ := delete_eq_ok h
      exact ⟨rfl, rfl, rfl⟩
    · exact ⟨rfl, rfl, rfl⟩
  | mark txn => exact ⟨rfl, rfl, rfl⟩

theorem Sound.after {p : Page} (hp : p.Sound) (call : Call) : (p.after call).Sound := by
  cases call with
  | insert t made =>
    obtain ⟨u, hu⟩ := Option.isSome_iff_exists.1 made
    obtain ⟨-, htypes, hfits⟩ := Tuple.make?_eq_some_iff.1 hu
    rw [Page.after]
    split
    · next q r h => exact hp.insert ⟨htypes, hfits⟩ h
    · exact hp
  | delete record =>
    rw [Page.after]
    split
    · next q h => exact hp.delete h
    · exact hp
  | mark txn => exact hp.withDirtier txn

theorem sameShape_afterAll : ∀ (calls : List Call) (p : Page), SameShape p (p.afterAll calls)
  | [], _ => ⟨rfl, rfl, rfl⟩
  | call :: calls, p => by
    have h1 := sameShape_after p call
    have h2 := sameShape_afterAll calls (p.after call)
    exact ⟨h2.id.trans h1.id, h2.layout.trans h1.layout, h2.size.trans h1.size⟩

theorem sound_afterAll : ∀ (calls : List Call) {p : Page}, p.Sound → (p.afterAll calls).Sound
  | [], _, hp => hp
  | call :: calls, _, hp => sound_afterAll calls (hp.after call)

/-! ## What is read back -/

/-- A row is read back under the page's layout, where it was. -/
theorem row?_asStored (p : Page) (i : Nat) :
    p.asStored.row? i = (p.row? i).map fun t => { t with layout := p.layout } := by
  simp only [row?, asStored, List.getElem?_map]
  cases p.slots[i]? with
  | none => rfl
  | some s => rfl

theorem row?_eq_some_iff {p : Page} {i : Nat} {t : Tuple} :
    p.row? i = some t ↔ p.slots[i]? = some (some t) := by
  rw [row?, Option.join_eq_some_iff]

theorem sound_asStored {p : Page} (hp : p.Sound) : p.asStored.Sound := by
  refine ⟨by simpa [asStored] using hp.length, fun i t ht => ?_⟩
  obtain ⟨u, hu, rfl⟩ := Option.map_eq_some_iff.1
    ((row?_asStored p i).symm.trans (row?_eq_some_iff.2 ht))
  obtain ⟨hr, hl, hs⟩ := hp.row i u (row?_eq_some_iff.1 hu)
  exact ⟨hr, rfl, hs.types.trans hl, hs.fits⟩

theorem sameContent_asStored {p : Page} (hp : p.Sound) : p.sameContent p.asStored = true :=
  (sameContent_iff hp (sound_asStored hp)).2 ⟨rfl, rfl, rfl, (grid_asStored p).symm⟩

theorem sameSlot_asStored {p : Page} (hp : p.Sound) (i : Nat) :
    sameSlot (p.row? i) (p.asStored.row? i) = true := by
  refine (sameSlot_iff p.layout (fun t ht => ?_) fun t ht => ?_).2 ?_
  · exact (hp.row i t (row?_eq_some_iff.1 ht)).2.1
  · exact ((sound_asStored hp).row i t (row?_eq_some_iff.1 ht)).2.1
  · rw [fields_row, fields_row, grid_asStored]

/-- Whatever is called on an empty page that has room for a checksum, its bytes are
as many as the page size, and a reader who knows id, layout and page size gets the
same page from them: the same row or none in every slot, every row with the record
id of its slot, and nobody's changes. -/
theorem decode_encode_afterAll (id : PageId) (layout : Layout) (size : Nat) (hsize : 4 ≤ size)
    (calls : List Call) :
    ∃ bytes q, ((empty id layout size).afterAll calls).encode = .ok bytes ∧ bytes.length = size ∧
      decode id layout size bytes = .ok q ∧
      ((empty id layout size).afterAll calls).sameContent q = true ∧
      (∀ i, sameSlot (((empty id layout size).afterAll calls).row? i) (q.row? i) = true) ∧
      (∀ i t, q.row? i = some t → t.record = some ⟨id, i⟩) ∧ q.dirtier = none := by
  have hp : ((empty id layout size).afterAll calls).Sound :=
    sound_afterAll calls (sound_empty id layout size)
  have hshape := sameShape_afterAll calls (empty id layout size)
  generalize (empty id layout size).afterAll calls = p at hp hshape
  obtain ⟨rfl, rfl, rfl⟩ : p.id = id ∧ p.layout = layout ∧ p.size = size :=
    ⟨hshape.id, hshape.layout, hshape.size⟩
  refine ⟨p.image, p.asStored, encode_eq hp hsize, length_image hp hsize, decode_image hp hsize,
    sameContent_asStored hp, sameSlot_asStored hp, fun i t ht => ?_, rfl⟩
  exact ((sound_asStored hp).row i t (row?_eq_some_iff.1 ht)).1

/-- Calls on a page with two slots: the third insert finds none free, and the second
delete nothing to free. -/
def sampleCalls : List Call :=
  [.insert ⟨.ofTypes [.int], [.int 1], none⟩ rfl, .insert ⟨.ofTypes [.int], [.int 2], none⟩ rfl,
    .insert ⟨.ofTypes [.int], [.int 3], none⟩ rfl, .delete (some ⟨⟨.numbered 1, 0⟩, 0⟩),
    .delete (some ⟨⟨.numbered 1, 0⟩, 0⟩), .mark (some 7)]

theorem decode_encode_afterAll_sampleCalls :
    ∃ bytes q,
      ((empty ⟨.numbered 1, 0⟩ (.ofTypes [.int]) 13).afterAll sampleCalls).encode = .ok bytes ∧
      decode ⟨.numbered 1, 0⟩ (.ofTypes [.int]) 13 bytes = .ok q ∧
      sameSlot none (q.row? 0) = true ∧
      sameSlot (some ⟨.ofTypes [.int], [.int 2], some ⟨⟨.numbered 1, 0⟩, 1⟩⟩) (q.row? 1) = true := by
  obtain ⟨bytes, q, hencode, -, hdecode, -, hslot, -⟩ :=
    decode_encode_afterAll ⟨.numbered 1, 0⟩ (.ofTypes [.int]) 13 (by decide) sampleCalls
  exact ⟨bytes, q, hencode, hdecode, hslot 0, hslot 1⟩

end PageStore.Page
