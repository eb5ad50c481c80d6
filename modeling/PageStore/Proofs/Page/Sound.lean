import PageStore.Proofs.Page.Bitmap
import PageStore.Proofs.Row.RoundTrip

/-!
# Sound pages, and what they show

A page is `Sound` if it has the slots that its size and layout give it, and
every row in it follows the layout, fits, and carries the record id of its
slot. Making, reading and changing pages keeps this, so every page that a table
hands out is sound.

The `grid` of a page is what a reader sees of it: the values in each slot. Two
sound pages of one table are the same page exactly when their grids are equal.

Results:
* `sound_empty`, `Sound.insert`, `Sound.delete`, `sound_decode`: where sound
  pages come from.
* `grid_insert`, `grid_delete`: what a change does to the grid.
* `sameContent_iff`: grids decide whether two pages are the same.
-/
namespace PageStore

/-- The values follow the row's layout, and would be stored whole. -/
structure Tuple.Sound (t : Tuple) : Prop where
  types : t.fields.map Field.type = t.layout.types
  fits : t.fields.all Field.fits = true

theorem Tuple.sound_make {layout : Layout} {fields : List Field} {t : Tuple}
    (h : make? layout fields = some t) : t.Sound := by
  obtain ⟨rfl, ht, hf⟩ := make?_eq_some_iff.1 h
  exact ⟨ht, hf⟩

/-- The values in each slot of a page. -/
abbrev Grid := List (Option (List Field))

namespace Grid

/-- No slot is free. -/
def Full (g : Grid) : Prop := ∀ s ∈ g, s.isSome = true

/-- The grid with a row in its lowest free slot. -/
def insert? (g : Grid) (fields : List Field) : Option Grid :=
  (g.findIdx? Option.isNone).map fun slot => g.set slot (some fields)

theorem full_iff_insert? {g : Grid} {fields : List Field} : g.Full ↔ g.insert? fields = none := by
  simp [Full, insert?, List.findIdx?_eq_none_iff, Option.isSome_iff_ne_none]

end Grid

namespace Page

def grid (p : Page) : Grid := p.slots.map (Option.map Tuple.fields)

/-- The page has its slots, and each row in it is where its record id says. -/
structure Sound (p : Page) : Prop where
  length : p.slots.length = Geometry.slotCount p.size p.layout.width
  row : ∀ (i : Nat) (t : Tuple), p.slots[i]? = some (some t) →
    t.record = some ⟨p.id, i⟩ ∧ t.layout.types = p.layout.types ∧ t.Sound

theorem getElem?_grid (p : Page) (i : Nat) : p.grid[i]? = (p.slots[i]?).map (Option.map Tuple.fields) :=
  List.getElem?_map

theorem fields_row (page : Page) (slot : Nat) :
    (page.row? slot).map Tuple.fields = page.grid[slot]?.join := by
  rw [row?, getElem?_grid]
  cases page.slots[slot]? with
  | none => rfl
  | some row => cases row <;> rfl

@[simp] theorem grid_withDirtier (p : Page) (t : Option TxnId) : (p.withDirtier t).grid = p.grid := rfl

theorem Sound.withDirtier {p : Page} (h : p.Sound) (t : Option TxnId) : (p.withDirtier t).Sound :=
  ⟨h.length, h.row⟩

/-! ## New pages -/

theorem sound_empty (id : PageId) (layout : Layout) (size : Nat) : (empty id layout size).Sound := by
  refine ⟨length_slots_empty id layout size, fun i t h => ?_⟩
  rw [empty, List.getElem?_replicate] at h
  split at h <;> cases h

theorem grid_empty (id : PageId) (layout : Layout) (size : Nat) :
    (empty id layout size).grid = List.replicate (Geometry.slotCount size layout.width) none := by
  simp [grid, empty]

/-! ## Inserting -/

theorem freeSlot?_eq (p : Page) : p.freeSlot? = p.grid.findIdx? Option.isNone := by
  rw [freeSlot?, grid, List.findIdx?_map]
  congr 1
  funext s
  cases s <;> rfl

theorem freeCount_eq_zero_iff {p : Page} : p.freeCount = 0 ↔ p.grid.Full := by
  simp [freeCount, Grid.Full, grid, List.countP_eq_zero, Option.isSome_iff_ne_none]

/-- What a successful insert does: the row goes into the lowest free slot, and
nothing else about the page changes. -/
theorem insert_eq_ok {p q : Page} {t : Tuple} {r : RecordId} (h : p.insert t = .ok (q, r)) :
    ∃ slot, p.freeSlot? = some slot ∧ t.layout.agrees p.layout = true ∧ r = ⟨p.id, slot⟩ ∧
      q = { p with slots := p.slots.set slot (some { t with record := some ⟨p.id, slot⟩ }) } := by
  unfold insert at h
  split at h
  · next ha =>
    split at h
    · cases h
    · next slot hs =>
      cases h
      exact ⟨slot, hs, ha, rfl, rfl⟩
  · cases h

theorem full_iff_freeSlot? {p : Page} : p.grid.Full ↔ p.freeSlot? = none := by
  rw [freeSlot?_eq_none_iff]
  simp [Grid.Full, grid]

theorem insert_isOk {p : Page} {t : Tuple} (ha : t.layout.agrees p.layout = true)
    (hf : ¬p.grid.Full) : ∃ q r, p.insert t = .ok (q, r) := by
  unfold insert
  rw [if_pos ha]
  split
  · next hn => exact absurd (full_iff_freeSlot?.2 hn) hf
  · exact ⟨_, _, rfl⟩

theorem grid_insert {p q : Page} {t : Tuple} {r : RecordId} (h : p.insert t = .ok (q, r)) :
    p.grid.insert? t.fields = some q.grid := by
  obtain ⟨slot, hs, -, -, rfl⟩ := insert_eq_ok h
  rw [Grid.insert?, ← freeSlot?_eq, hs]
  simp [grid, List.map_set]

theorem Sound.insert {p q : Page} (hp : p.Sound) {t : Tuple} (ht : t.Sound) {r : RecordId}
    (h : p.insert t = .ok (q, r)) : q.Sound := by
  obtain ⟨slot, -, ha, -, rfl⟩ := insert_eq_ok h
  refine ⟨by simpa using hp.length, fun i u hu => ?_⟩
  rw [List.getElem?_set] at hu
  split at hu
  · next hi =>
    split at hu
    · cases hu
      subst hi
      exact ⟨rfl, Layout.agrees_iff.1 ha, ht.types, ht.fits⟩
    · cases hu
  · exact hp.row i u hu

/-! ## Deleting -/

/-- What a successful delete does: it frees the slot of the record, which held
a row of this page. -/
theorem delete_eq_ok {p q : Page} {record : Option RecordId} (h : p.delete record = .ok q) :
    ∃ r, record = some r ∧ r.page = p.id ∧ (∃ t, p.slots[r.slot]? = some (some t)) ∧
      q = { p with slots := p.slots.set r.slot none } := by
  unfold delete at h
  split at h
  · cases h
  next r =>
  split at h
  · cases h
  · next hid =>
    split at h
    · cases h
    · cases h
    · next t ht =>
      cases h
      exact ⟨r, rfl, Decidable.not_not.1 hid, ⟨t, ht⟩, rfl⟩

theorem grid_delete {p q : Page} {record : Option RecordId} (h : p.delete record = .ok q) :
    ∃ r, record = some r ∧ q.grid = p.grid.set r.slot none := by
  obtain ⟨r, hr, -, -, rfl⟩ := delete_eq_ok h
  exact ⟨r, hr, by simp [grid, List.map_set]⟩

theorem Sound.delete {p q : Page} (hp : p.Sound) {record : Option RecordId}
    (h : p.delete record = .ok q) : q.Sound := by
  obtain ⟨r, -, -, -, rfl⟩ := delete_eq_ok h
  refine ⟨by simpa using hp.length, fun i u hu => ?_⟩
  rw [List.getElem?_set] at hu
  split at hu
  · split at hu <;> cases hu
  · exact hp.row i u hu

/-! ## Reading -/

theorem decodeSlots_spec {id : PageId} {layout : Layout} {h : Header} {bytes : List UInt8} :
    ∀ {is : List Nat} {ss : List (Option Tuple)}, decodeSlots id layout h bytes is = .ok ss →
      ss.length = is.length ∧
        ∀ j i : Nat, is[j]? = some i → ∃ s, ss[j]? = some s ∧ decodeSlot id layout h bytes i = .ok s
  | [], ss, hd => by
    cases hd
    exact ⟨rfl, fun j i hi => by simp at hi⟩
  | i :: is, ss, hd => by
    rw [decodeSlots] at hd
    split at hd
    · cases hd
    next s hs =>
    obtain ⟨ss', hss, rfl⟩ := except_map_eq_ok hd
    obtain ⟨hl, hall⟩ := decodeSlots_spec hss
    refine ⟨by simp [hl], fun j k hk => ?_⟩
    cases j with
    | zero =>
      cases hk
      exact ⟨s, rfl, hs⟩
    | succ j => exact hall j k hk

/-- A row that was read from a slot has the slot's record id and follows the layout. -/
theorem decodeSlot_eq_ok {id : PageId} {layout : Layout} {h : Header} {bytes : List UInt8} {i : Nat}
    {t : Tuple} (hd : decodeSlot id layout h bytes i = .ok (some t)) :
    t.record = some ⟨id, i⟩ ∧ t.layout = layout ∧ t.Sound := by
  unfold decodeSlot at hd
  split at hd
  · split at hd
    · next u hu =>
      cases hd
      obtain ⟨fields, hf, rfl⟩ := except_map_eq_ok hu
      obtain ⟨h1, h2⟩ := Tuple.of_decodeFields hf
      exact ⟨rfl, rfl, h1, h2⟩
    · cases hd
  · cases hd

theorem decode_eq_ok {id : PageId} {layout : Layout} {size : Nat} {bytes : List UInt8} {p : Page}
    (h : decode id layout size bytes = .ok p) :
    ∃ slots, decodeBody id layout size bytes = .ok slots ∧ p = ⟨id, layout, size, slots, none⟩ := by
  unfold decode at h
  split at h
  · next slots hs => cases h; exact ⟨slots, hs, rfl⟩
  · cases h

/-- The slots are read after the length, the header and the checksum were found good. -/
theorem decodeBody_eq_ok_iff {id : PageId} {layout : Layout} {size : Nat} {bytes : List UInt8}
    {slots : List (Option Tuple)} :
    decodeBody id layout size bytes = .ok slots ↔
      bytes.length = size ∧
        ∃ h, Header.decode bytes (Geometry.slotCount size layout.width) = .ok h ∧
          h.verifies bytes = true ∧ decodeSlots id layout h bytes (List.range h.slots) = .ok slots := by
  unfold decodeBody
  split
  · next hlen => exact ⟨nofun, fun h => absurd h.1 hlen⟩
  next hlen =>
  have hlen : bytes.length = size := Decidable.not_not.1 hlen
  cases hh : Header.decode bytes (Geometry.slotCount size layout.width) with
  | error e => simp
  | ok h => cases hv : h.verifies bytes <;> simp [hlen, hv]

/-- The slots that are read are those that size and layout give the page; each row has
the record id of its slot and follows the layout. -/
theorem decodeBody_spec {id : PageId} {layout : Layout} {size : Nat} {bytes : List UInt8}
    {slots : List (Option Tuple)} (h : decodeBody id layout size bytes = .ok slots) :
    slots.length = Geometry.slotCount size layout.width ∧
      ∀ (i : Nat) (t : Tuple), slots[i]? = some (some t) →
        t.record = some ⟨id, i⟩ ∧ t.layout = layout ∧ t.Sound := by
  obtain ⟨-, h, hd, -, hs⟩ := decodeBody_eq_ok_iff.1 h
  obtain ⟨-, -, he⟩ := Header.decode_eq_ok_iff.1 hd
  have hn : h.slots = Geometry.slotCount size layout.width := by rw [he]
  obtain ⟨hl, hall⟩ := decodeSlots_spec hs
  rw [List.length_range] at hl
  refine ⟨hl.trans hn, fun i t ht => ?_⟩
  obtain ⟨hi, -⟩ := List.getElem?_eq_some_iff.1 ht
  obtain ⟨s, hs, hds⟩ := hall i i (List.getElem?_range (hl ▸ hi))
  rw [ht] at hs
  cases hs
  exact decodeSlot_eq_ok hds

theorem sound_decode {id : PageId} {layout : Layout} {size : Nat} {bytes : List UInt8} {p : Page}
    (h : decode id layout size bytes = .ok p) : p.Sound := by
  obtain ⟨slots, hb, rfl⟩ := decode_eq_ok h
  obtain ⟨hl, hrow⟩ := decodeBody_spec hb
  refine ⟨hl, fun i t ht => ?_⟩
  obtain ⟨hrecord, hlayout, hsound⟩ := hrow i t ht
  exact ⟨hrecord, by rw [hlayout], hsound⟩

/-- Rows that were read follow the layout that they were read by. -/
theorem layout_of_decode {id : PageId} {layout : Layout} {size : Nat} {bytes : List UInt8} {p : Page}
    (h : decode id layout size bytes = .ok p) {i : Nat} {t : Tuple} (ht : p.slots[i]? = some (some t)) :
    t.layout = layout := by
  obtain ⟨slots, hb, rfl⟩ := decode_eq_ok h
  exact ((decodeBody_spec hb).2 i t ht).2.1

/-! ## Equality -/

theorem sameSlot_iff (layout : Layout) {a b : Option Tuple}
    (ha : ∀ t, a = some t → t.layout.types = layout.types)
    (hb : ∀ t, b = some t → t.layout.types = layout.types) :
    sameSlot a b = true ↔ a.map Tuple.fields = b.map Tuple.fields := by
  cases a with
  | none => cases b <;> simp [sameSlot]
  | some t =>
    cases b with
    | none => simp [sameSlot]
    | some u =>
      have h : t.layout.agrees u.layout = true := by
        rw [Layout.agrees_iff, ha t rfl, hb u rfl]
      simp [sameSlot, Tuple.sameRow, h]

theorem sameSlots_iff (layout : Layout) : ∀ {as bs : List (Option Tuple)},
    (∀ t, some t ∈ as → t.layout.types = layout.types) →
      (∀ t, some t ∈ bs → t.layout.types = layout.types) →
      (sameSlots as bs = true ↔ as.map (Option.map Tuple.fields) = bs.map (Option.map Tuple.fields))
  | [], [], _, _ => by simp [sameSlots]
  | [], b :: bs, _, _ => by simp [sameSlots]
  | a :: as, [], _, _ => by simp [sameSlots]
  | a :: as, b :: bs, ha, hb => by
    have h1 : sameSlot a b = true ↔ a.map Tuple.fields = b.map Tuple.fields := by
      refine sameSlot_iff layout ?_ ?_
      · intro t ht
        exact ha t (by simp [ht])
      · intro t ht
        exact hb t (by simp [ht])
    have h2 : sameSlots as bs = true ↔
        as.map (Option.map Tuple.fields) = bs.map (Option.map Tuple.fields) := by
      refine sameSlots_iff layout ?_ ?_
      · intro t ht
        exact ha t (by simp [ht])
      · intro t ht
        exact hb t (by simp [ht])
    rw [sameSlots, Bool.and_eq_true, h1, h2]
    simp

theorem Sound.types_of_mem {p : Page} (hp : p.Sound) {t : Tuple} (ht : some t ∈ p.slots) :
    t.layout.types = p.layout.types := by
  obtain ⟨i, hi⟩ := List.getElem?_of_mem ht
  exact (hp.row i t hi).2.1

/-- Sound pages are the same exactly when they have the same place and shape
and show the same grid. -/
theorem sameContent_iff {a b : Page} (ha : a.Sound) (hb : b.Sound) :
    a.sameContent b = true ↔
      a.id = b.id ∧ a.size = b.size ∧ a.layout.types = b.layout.types ∧ a.grid = b.grid := by
  simp only [sameContent, Bool.and_eq_true, decide_eq_true_eq, Layout.agrees_iff, and_assoc]
  refine and_congr_right fun _ => and_congr_right fun _ => and_congr_right fun hl => ?_
  exact sameSlots_iff a.layout (fun t ht => ha.types_of_mem ht)
    (fun t ht => (hb.types_of_mem ht).trans hl.symm)

end Page

end PageStore
