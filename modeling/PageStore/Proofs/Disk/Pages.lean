import PageStore.Disk.Store
import PageStore.Proofs.Page.RoundTrip

/-!
# Storage as a map of pages

Storage is read here as two functions: how many whole pages a table's file
holds, and which page the bytes at a page's place decode to. Neither looks at
the faults that reads and writes through the catalog run into.

A catalog is `Sound` if every table is registered under its own id, has room
for a row on each page, and shares its file with no other table.

Results:
* `sound_register`: registering opened tables keeps a catalog sound as long as
  each has a file of its own.
* `page?_put`, `pages_put`: writing a page over an old one, or after the last
  one, changes that page and no other.
* `bytes?_putPart`: what a write that breaks off leaves at the place of its page, and
  that it leaves all other places alone.
* `page?_putPart`: writing a page after the last one changes no page if it breaks off.
* `sound_page?`: whatever is read is a sound page of its table.
-/
namespace PageStore

theorem PageId.eq_of_index {p q : PageId} (ht : p.table = q.table) (hi : p.index = q.index) : p = q := by
  cases p
  cases q
  rw [PageId.mk.injEq]
  exact ⟨ht, hi⟩

namespace SparseFile

theorem bytesAt_write_self (f : SparseFile) (start : Nat) (bytes : List UInt8) :
    (f.write start bytes).bytesAt start bytes.length = bytes := by
  refine List.ext_getElem (length_bytesAt _ _ _) fun i h1 h2 => ?_
  simp only [bytesAt, List.getElem_map, List.getElem_range, byteAt_write, Nat.le_add_right, if_true,
    Nat.add_sub_cancel_left, List.getElem?_eq_getElem h2, Option.getD_some]

/-- Bytes that a write does not reach stay. -/
theorem bytesAt_write_of_disjoint (f : SparseFile) {start at' length : Nat} {bytes : List UInt8}
    (h : at' + length ≤ start ∨ start + bytes.length ≤ at') :
    (f.write start bytes).bytesAt at' length = f.bytesAt at' length := by
  refine List.map_congr_left fun i hi => ?_
  rw [List.mem_range] at hi
  rw [byteAt_write]
  split
  · rw [List.getElem?_eq_none (by omega), Option.getD_none]
  · rfl

theorem bytesAt_add (f : SparseFile) (start m n : Nat) :
    f.bytesAt start (m + n) = f.bytesAt start m ++ f.bytesAt (start + m) n := by
  simp only [bytesAt, List.range_add, List.map_append, List.map_map]
  congr 1
  refine List.map_congr_left fun i _ => ?_
  rw [Function.comp_apply, Nat.add_assoc]

variable {f : SparseFile} {width i j : Nat} {bytes : List UInt8}

/-- Places of one width do not overlap. -/
theorem mul_add_le_of_lt (h : i < j) (width : Nat) : i * width + width ≤ j * width := by
  rw [← Nat.succ_mul]
  exact Nat.mul_le_mul_right width h

/-- Reading one of the places of a file after another, or the next one, was written. -/
theorem read_write_place (hw : 0 < width) (hb : bytes.length = width) (hi : i ≤ f.size / width) :
    (f.write (i * width) bytes).read (j * width) width =
      if j = i then some bytes else f.read (j * width) width := by
  have hne : bytes ≠ [] := by rintro rfl; simp at hb; omega
  have hstart : i * width ≤ f.size := (Nat.le_div_iff_mul_le hw).1 hi
  by_cases hj : j = i
  · subst hj
    rw [if_pos rfl, read_eq_some_iff, size_write f _ hne, ← hb, bytesAt_write_self]
    exact ⟨Nat.le_max_right _ _, rfl⟩
  · have hd : j * width + width ≤ i * width ∨ i * width + bytes.length ≤ j * width := by
      rw [hb]
      rcases Nat.lt_or_gt_of_ne hj with h | h
      · exact .inl (mul_add_le_of_lt h width)
      · exact .inr (mul_add_le_of_lt h width)
    have hs : j * width + width ≤ (f.write (i * width) bytes).size ↔ j * width + width ≤ f.size := by
      rw [size_write f _ hne, hb]
      omega
    simp only [if_neg hj, read, hs, bytesAt_write_of_disjoint f hd]

theorem size_write_place (hw : 0 < width) (hb : bytes.length = width) :
    (f.write (i * width) bytes).size / width = max (f.size / width) (i + 1) := by
  have hne : bytes ≠ [] := by rintro rfl; simp at hb; omega
  rw [size_write f _ hne, hb, ← Nat.succ_mul]
  rcases Nat.le_total f.size ((i + 1) * width) with h | h
  · rw [Nat.max_eq_right h, Nat.mul_div_cancel _ hw,
      Nat.max_eq_right (by simpa [Nat.mul_div_cancel _ hw] using Nat.div_le_div_right (c := width) h)]
  · rw [Nat.max_eq_left h, Nat.max_eq_left ((Nat.le_div_iff_mul_le hw).2 h)]

/-- A write after the last whole place that stops short of a whole place is not seen there. -/
theorem read_write_part (hb : bytes.length < width) (hi : i = f.size / width) :
    (f.write (i * width) bytes).read (j * width) width = f.read (j * width) width := by
  by_cases hne : bytes = []
  · rw [write, if_pos (List.isEmpty_iff.2 hne)]
  have hend : f.size < i * width + width := by
    rw [hi, ← Nat.succ_mul]
    exact (Nat.div_lt_iff_lt_mul (by omega)).1 (Nat.lt_succ_self _)
  have hs : j * width + width ≤ (f.write (i * width) bytes).size ↔ j * width + width ≤ f.size := by
    rw [size_write f _ hne]
    rcases Nat.lt_or_ge j i with hj | hj
    · have := mul_add_le_of_lt hj width
      have hstart : i * width ≤ f.size := hi ▸ Nat.div_mul_le_self f.size width
      omega
    · have := Nat.mul_le_mul_right width hj
      omega
  unfold read
  simp only [hs]
  split
  · next hle =>
    have hj : j < i := by
      by_contra hj
      have := Nat.mul_le_mul_right width (Nat.le_of_not_lt hj)
      omega
    rw [bytesAt_write_of_disjoint f (.inl (mul_add_le_of_lt hj width))]
  · rfl

/-- A write at a place of the file, not longer than the place, replaces the first bytes there. -/
theorem read_write_within (hb : bytes.length ≤ width) (hi : i < f.size / width) :
    (f.write (i * width) bytes).read (j * width) width =
      if j = i then (f.read (j * width) width).map fun old => bytes ++ old.drop bytes.length
      else f.read (j * width) width := by
  by_cases hne : bytes = []
  · subst hne
    simp [write]
  have hw : 0 < width := Nat.lt_of_lt_of_le (List.length_pos_iff.2 hne) hb
  have hin : i * width + width ≤ f.size := by
    rw [← Nat.succ_mul]
    exact (Nat.le_div_iff_mul_le hw).1 hi
  have hs : (f.write (i * width) bytes).size = f.size := by
    rw [size_write f _ hne]
    omega
  by_cases hj : j = i
  · subst hj
    obtain ⟨rest, rfl⟩ : ∃ rest, width = bytes.length + rest := ⟨width - bytes.length, by omega⟩
    have hdrop : (f.bytesAt (j * (bytes.length + rest)) (bytes.length + rest)).drop bytes.length =
        f.bytesAt (j * (bytes.length + rest) + bytes.length) rest := by
      rw [bytesAt_add, List.drop_left' (length_bytesAt _ _ _)]
    rw [if_pos rfl, read, read, if_pos (hs ▸ hin), if_pos hin, Option.map_some, hdrop, bytesAt_add,
      bytesAt_write_self, bytesAt_write_of_disjoint f (.inr (Nat.le_refl _))]
  · have hd : j * width + width ≤ i * width ∨ i * width + bytes.length ≤ j * width := by
      rcases Nat.lt_or_gt_of_ne hj with h | h
      · exact .inl (mul_add_le_of_lt h width)
      · have := mul_add_le_of_lt h width
        exact .inr (by omega)
    rw [if_neg hj, read, read, hs, bytesAt_write_of_disjoint f hd]

end SparseFile

/-! ## Heap files -/

namespace HeapFile

variable {f : HeapFile} {v u : Volume} {p : Page}

/-- A table that was opened has its own name, and room for a row on each page. -/
theorem of_make {id : TableId} {name : String} {layout : Layout} {pageSize : Nat}
    {append : AppendPolicy} (hf : make id name layout pageSize append = .ok f) :
    f.name = name ∧ Geometry.slotCount f.pageSize f.layout.width ≠ 0 := by
  unfold make at hf
  split at hf
  · cases hf
  split at hf
  · cases hf
  · next hs =>
    cases hf
    exact ⟨rfl, hs⟩

/-- The number of whole pages in the file. -/
def places (f : HeapFile) (v : Volume) : Nat := f.fileSize v / f.pageSize

theorem writePage_eq_ok_iff : f.writePage v p = .ok u ↔
    p.id.table = f.id ∧ p.size = f.pageSize ∧ p.id.index ≤ f.places v ∧
      u = f.put v (p.id.offset f.pageSize) p.image := by
  unfold writePage checkOwner places
  by_cases hid : p.id.table = f.id
  · by_cases hsize : p.size = f.pageSize
    · by_cases hi : f.fileSize v / f.pageSize < p.id.index
      · have hn : ¬p.id.index ≤ f.fileSize v / f.pageSize := Nat.not_le.2 hi
        simp [hid, hsize, hi, hn]
      · simp [hid, hsize, hi, Nat.not_lt.1 hi, eq_comm]
    · simp [hid, hsize]
  · simp [hid]

end HeapFile

/-! ## The catalog -/

namespace Catalog

/-- Tables stand under their own ids, have pages that hold a row, and have a
file each. -/
structure Sound (tables : Catalog) : Prop where
  id : ∀ (t : TableId) (m : Mount), tables[t]? = some m → m.file.id = t
  slots : ∀ (t : TableId) (m : Mount), tables[t]? = some m →
    Geometry.slotCount m.file.pageSize m.file.layout.width ≠ 0
  alone : ∀ (t u : TableId) (m n : Mount), tables[t]? = some m → tables[u]? = some n →
    m.file.name = n.file.name → t = u

theorem sound_empty : Sound ∅ := by
  refine ⟨fun t m h => ?_, fun t m h => ?_, fun t u m n h => ?_⟩ <;> simp at h

theorem lookup_eq_ok {tables : Catalog} {t : TableId} {m : Mount} :
    tables.lookup t = .ok m ↔ tables[t]? = some m := by
  unfold lookup
  split
  · next m' h => rw [h]; simp
  · next h => rw [h]; simp

theorem sound_register {tables tables' : Catalog} (hc : tables.Sound) {id : TableId} {name : String}
    {layout : Layout} {pageSize : Nat} {append : AppendPolicy} {f : HeapFile} {faults : Faults}
    (hf : HeapFile.make id name layout pageSize append = .ok f)
    (hn : ∀ (t : TableId) (m : Mount), tables[t]? = some m → m.file.name ≠ name)
    (h : tables.register ⟨f, faults⟩ = .ok tables') : tables'.Sound := by
  have hfile := HeapFile.of_make hf
  have hmem : ∀ (t : TableId) (m : Mount), tables'[t]? = some m →
      (t = f.id ∧ m = ⟨f, faults⟩) ∨ tables[t]? = some m := by
    intro t m ht
    have hl := lookup_register h t
    rw [lookup_eq_ok.2 ht] at hl
    split at hl
    · next he => cases hl; exact .inl ⟨he, rfl⟩
    · exact .inr (lookup_eq_ok.1 hl.symm)
  refine ⟨fun t m ht => ?_, fun t m ht => ?_, fun t u m n ht hu he => ?_⟩
  · rcases hmem t m ht with ⟨rfl, rfl⟩ | h'
    · rfl
    · exact hc.id t m h'
  · rcases hmem t m ht with ⟨rfl, rfl⟩ | h'
    · exact hfile.2
    · exact hc.slots t m h'
  · rcases hmem t m ht with ⟨rfl, rfl⟩ | h1 <;> rcases hmem u n hu with ⟨rfl, rfl⟩ | h2
    · rfl
    · exact absurd (he.symm.trans hfile.1) (hn u n h2)
    · exact absurd (he.trans hfile.1) (hn t m h1)
    · exact hc.alone t u m n h1 h2 he

end Catalog

theorem Geometry.lt_of_slotCount {pageSize width : Nat} (h : slotCount pageSize width ≠ 0) :
    checksumWidth < pageSize := by
  unfold slotCount at h
  refine Nat.lt_of_not_le fun hle => h ?_
  rw [Nat.sub_eq_zero_of_le hle, Nat.zero_mul, Nat.zero_div]

theorem Catalog.Sound.checksumWidth_lt {tables : Catalog} (hc : tables.Sound) {t : TableId} {m : Mount}
    (h : tables[t]? = some m) : Geometry.checksumWidth < m.file.pageSize :=
  Geometry.lt_of_slotCount (hc.slots t m h)

theorem Catalog.Sound.pageSize_pos {tables : Catalog} (hc : tables.Sound) {t : TableId} {m : Mount}
    (h : tables[t]? = some m) : 0 < m.file.pageSize :=
  Nat.zero_lt_of_lt (hc.checksumWidth_lt h)

/-- What pages show. -/
abbrev Contents := PageId → Option Grid

namespace Store

/-! ## What storage holds -/

/-- The stored bytes at the place of a page, if the file is that long. -/
def bytes? (s : Store) (p : PageId) : Option (List UInt8) :=
  match s.catalog[p.table]? with
  | some m => (s.volume.fileOf m.file.name).read (p.offset m.file.pageSize) m.file.pageSize
  | none => none

/-- The page that the stored bytes decode to. -/
def page? (s : Store) (p : PageId) : Option Page :=
  match s.catalog[p.table]? with
  | some m => (m.file.readPage s.volume p).toOption
  | none => none

/-- The number of whole pages in a table's file. -/
def pages (s : Store) (t : TableId) : Nat :=
  match s.catalog[t]? with
  | some m => m.file.fileSize s.volume / m.file.pageSize
  | none => 0

/-- The file of a registered table. -/
def file? (s : Store) (t : TableId) : Option HeapFile := (s.catalog[t]?).map Mount.file

/-- The page has the shape of its table's pages. -/
def Fits (s : Store) (page : Page) : Prop :=
  ∃ m, s.catalog[page.id.table]? = some m ∧ page.layout = m.file.layout ∧ page.size = m.file.pageSize

/-- What the stored pages show. -/
def contents (s : Store) : Contents := fun p => (s.page? p).map Page.grid

/-- The slots of each page of a table. -/
def slots (s : Store) (t : TableId) : Nat :=
  match s.file? t with
  | some f => Geometry.slotCount f.pageSize f.layout.width
  | none => 0

/-- What a new page of a table shows. -/
def blank (s : Store) (t : TableId) : Grid := List.replicate (s.slots t) none

theorem file_of_catalog {s s' : Store} (h : s'.catalog = s.catalog) (u : TableId) :
    s'.file? u = s.file? u := by
  rw [file?, file?, h]

theorem slots_congr {s s' : Store} (h : ∀ u, s'.file? u = s.file? u) : s'.slots = s.slots := by
  funext t
  rw [slots, slots, h]

theorem blank_congr {s s' : Store} (h : ∀ u, s'.file? u = s.file? u) : s'.blank = s.blank := by
  funext t
  rw [blank, blank, slots_congr h]

theorem contents_congr {s s' : Store} {p : PageId} (h : s'.page? p = s.page? p) :
    s'.contents p = s.contents p := by
  rw [contents, contents, h]

variable {s : Store} {p : PageId} {m : Mount}

theorem page?_of_mount (hm : s.catalog[p.table]? = some m) :
    s.page? p = (m.file.readPage s.volume p).toOption := by
  rw [page?, hm]

theorem bytes?_of_mount (hm : s.catalog[p.table]? = some m) : s.bytes? p =
    (s.volume.fileOf m.file.name).read (p.index * m.file.pageSize) m.file.pageSize := by
  rw [bytes?, hm]
  rfl

theorem pages_of_mount {t : TableId} (hm : s.catalog[t]? = some m) :
    s.pages t = m.file.fileSize s.volume / m.file.pageSize := by
  rw [pages, hm]

theorem blank_of_mount (hm : s.catalog[p.table]? = some m) :
    s.blank p.table = (Page.empty p m.file.layout m.file.pageSize).grid := by
  rw [blank, slots, file?, hm, Page.grid_empty]
  rfl

theorem toOption_eq_some {α ε : Type} {x : Except ε α} {a : α} : x.toOption = some a ↔ x = .ok a := by
  cases x <;> simp [Except.toOption]

/-- A page is there if its bytes are, and they decode. -/
theorem page?_eq_some_iff (hc : s.catalog.Sound) (hm : s.catalog[p.table]? = some m) {page : Page} :
    s.page? p = some page ↔ ∃ bytes, s.bytes? p = some bytes ∧
      Page.decode p m.file.layout m.file.pageSize bytes = .ok page := by
  rw [page?_of_mount hm, toOption_eq_some, bytes?, hm, HeapFile.readPage, HeapFile.checkOwner,
    if_pos (hc.id _ _ hm).symm]
  dsimp only
  split
  · next h => simp [h]
  · next bytes h => simp [h]

/-- Where the bytes are the same, so is the page. -/
theorem page?_congr (hc : s.catalog.Sound) {s' : Store} (hs : s'.catalog = s.catalog)
    (h : s'.bytes? p = s.bytes? p) : s'.page? p = s.page? p := by
  cases hm : s.catalog[p.table]? with
  | none => rw [page?, page?, hs, hm]
  | some m =>
    refine Option.ext fun x => ?_
    rw [page?_eq_some_iff (hs.symm ▸ hc) (hs.symm ▸ hm), h]
    exact (page?_eq_some_iff hc hm).symm

/-- No page is stored after the last one. -/
theorem bytes?_eq_none (hc : s.catalog.Sound) (h : s.pages p.table ≤ p.index) : s.bytes? p = none := by
  unfold bytes?
  split
  · next m hm =>
    rw [pages_of_mount hm] at h
    by_contra hn
    obtain ⟨bytes, hb⟩ := Option.ne_none_iff_exists'.1 hn
    have hle := (SparseFile.read_eq_some_iff.1 hb).1
    rw [PageId.offset, ← Nat.succ_mul] at hle
    exact absurd ((Nat.le_div_iff_mul_le (hc.pageSize_pos hm)).2 hle)
      (Nat.not_le_of_lt (Nat.lt_succ_of_le h))
  · rfl

theorem mount_of_page? {page : Page} (h : s.page? p = some page) :
    ∃ m, s.catalog[p.table]? = some m := by
  unfold page? at h
  split at h
  · next m hm => exact ⟨m, hm⟩
  · cases h

/-- Whatever is read is a clean, sound page of its table, from within the file. -/
theorem sound_page? (hc : s.catalog.Sound) {page : Page} (h : s.page? p = some page) :
    page.id = p ∧ page.dirtier = none ∧ page.Sound ∧ s.Fits page ∧ p.index < s.pages p.table := by
  obtain ⟨m, hm⟩ := mount_of_page? h
  obtain ⟨bytes, hb, hd⟩ := (page?_eq_some_iff hc hm).1 h
  have hsound := Page.sound_decode hd
  obtain ⟨slots, -, rfl⟩ := Page.decode_eq_ok hd
  refine ⟨rfl, rfl, hsound, ⟨m, hm, rfl, rfl⟩, ?_⟩
  rw [bytes?, hm] at hb
  obtain ⟨hle, -⟩ := SparseFile.read_eq_some_iff.1 hb
  have hpos := hc.pageSize_pos hm
  rw [pages_of_mount hm]
  refine (Nat.le_div_iff_mul_le hpos).2 ?_
  rw [Nat.succ_mul]
  exact hle

/-- What a read through the catalog yields is the stored page. -/
theorem page?_of_readPage {page : Page} (h : s.readPage p = .ok page) : s.page? p = some page := by
  unfold readPage at h
  split at h
  · cases h
  · next m hm =>
    split at h
    · cases h
    · rw [page?_of_mount (Catalog.lookup_eq_ok.1 hm), toOption_eq_some]
      exact h

/-- Unless it is made to fail, a read yields the stored page if there is one. -/
theorem readPage_of_page? (hm : s.catalog[p.table]? = some m) (hf : p.index ∉ m.faults.unreadable)
    {page : Page} (h : s.page? p = some page) : s.readPage p = .ok page := by
  rw [page?_of_mount hm, toOption_eq_some] at h
  rw [readPage, Catalog.lookup_eq_ok.2 hm]
  dsimp only
  rw [if_neg hf, h]

/-! ## Stored rows -/

/-- The row stored in a slot of a page. -/
def row? (s : Store) (p : PageId) (slot : Nat) : Option Tuple := (s.page? p).bind (·.row? slot)

theorem fields_row (s : Store) (p : PageId) (slot : Nat) :
    (s.row? p slot).map Tuple.fields = (s.contents p).bind fun g => g[slot]?.join := by
  rw [row?, contents]
  cases s.page? p with
  | none => rfl
  | some page =>
    rw [Option.bind_some, Option.map_some, Option.bind_some, Page.fields_row]

/-- A stored row follows the layout of its table and has the record id of its slot. -/
theorem row_eq_some (hc : s.catalog.Sound) {slot : Nat} {tuple : Tuple}
    (h : s.row? p slot = some tuple) :
    (∃ f, s.file? p.table = some f ∧ tuple.layout = f.layout) ∧ tuple.record = some ⟨p, slot⟩ := by
  obtain ⟨page, hp, hrow⟩ := Option.bind_eq_some_iff.1 h
  have hslot : page.slots[slot]? = some (some tuple) := Option.join_eq_some_iff.1 hrow
  obtain ⟨hid, -, hsound, -, -⟩ := sound_page? hc hp
  obtain ⟨m, hm⟩ := mount_of_page? hp
  obtain ⟨bytes, -, hd⟩ := (page?_eq_some_iff hc hm).1 hp
  refine ⟨⟨m.file, by rw [file?, hm]; rfl, Page.layout_of_decode hd hslot⟩, ?_⟩
  rw [(hsound.row slot tuple hslot).1, hid]

/-- So rows of the same files are the same if their values are. -/
theorem row_congr {s' : Store} (hc : s.catalog.Sound) (hc' : s'.catalog.Sound)
    (hfile : ∀ u, s'.file? u = s.file? u) {slot : Nat}
    (h : (s'.row? p slot).map Tuple.fields = (s.row? p slot).map Tuple.fields) :
    s'.row? p slot = s.row? p slot := by
  cases ht : s.row? p slot with
  | none =>
    rw [ht] at h
    exact Option.map_eq_none_iff.1 h
  | some tuple =>
    rw [ht] at h
    obtain ⟨tuple', ht', hfields⟩ := Option.map_eq_some_iff.1 h
    obtain ⟨⟨f, hf, hl⟩, hr⟩ := row_eq_some hc ht
    obtain ⟨⟨f', hf', hl'⟩, hr'⟩ := row_eq_some hc' ht'
    obtain rfl : f' = f := Option.some.inj (hf'.symm.trans ((hfile _).trans hf))
    rw [ht']
    cases tuple
    cases tuple'
    simp_all

/-! ## Writing a page -/

/-- What is put into the file of one table is not seen in another. -/
theorem bytes?_of_other (hc : s.catalog.Sound) {t : TableId} (hm : s.catalog[t]? = some m)
    (hp : p.table ≠ t) (start : Nat) (bytes : List UInt8) :
    bytes? { s with volume := m.file.put s.volume start bytes } p = s.bytes? p := by
  unfold bytes?
  dsimp only
  cases hn : s.catalog[p.table]? with
  | none => rfl
  | some n =>
    dsimp only
    rw [HeapFile.fileOf_put, if_neg fun he => hp (hc.alone _ _ _ _ hn hm he)]

/-- Storage after the bytes of a page were put at its place. -/
def put (s : Store) (m : Mount) (page : Page) : Store :=
  { s with volume := m.file.put s.volume (page.id.offset m.file.pageSize) page.image }

section
variable {page : Page} (hc : s.catalog.Sound) (hm : s.catalog[page.id.table]? = some m)
  (hp : page.Sound) (hsize : page.size = m.file.pageSize)
  (hi : page.id.index ≤ s.pages page.id.table)

include hc hm hp hsize

theorem length_image_of_mount : page.image.length = m.file.pageSize := by
  rw [Page.length_image hp, hsize]
  rw [hsize]
  exact Nat.le_of_lt (hc.checksumWidth_lt hm)

theorem pages_put (t : TableId) :
    (s.put m page).pages t =
      if t = page.id.table then max (s.pages t) (page.id.index + 1) else s.pages t := by
  have hpos := hc.pageSize_pos hm
  have hlen := length_image_of_mount hc hm hp hsize
  unfold pages put HeapFile.fileSize
  dsimp only
  by_cases ht : t = page.id.table
  · rw [if_pos ht, ht, hm]
    dsimp only
    rw [HeapFile.fileOf_put, if_pos rfl]
    exact SparseFile.size_write_place hpos hlen
  · rw [if_neg ht]
    cases hn : s.catalog[t]? with
    | none => rfl
    | some n =>
      dsimp only
      rw [HeapFile.fileOf_put, if_neg fun he => ht (hc.alone _ _ _ _ hn hm he)]

include hi

theorem bytes?_put (q : PageId) :
    (s.put m page).bytes? q = if q = page.id then some page.image else s.bytes? q := by
  have hpos := hc.pageSize_pos hm
  have hlen := length_image_of_mount hc hm hp hsize
  rw [pages_of_mount hm] at hi
  by_cases ht : q.table = page.id.table
  · unfold bytes? put
    rw [ht, hm]
    dsimp only
    rw [HeapFile.fileOf_put, if_pos rfl]
    unfold PageId.offset
    rw [SparseFile.read_write_place hpos hlen hi]
    by_cases hq : q.index = page.id.index
    · rw [if_pos hq, if_pos (PageId.eq_of_index ht hq)]
    · rw [if_neg hq, if_neg (fun h => hq (by rw [h]))]
  · rw [if_neg fun h => ht (by rw [h])]
    exact bytes?_of_other hc hm ht _ _

/-- A page that was written is the one that is read there, and all others are
as before. -/
theorem page?_put (hl : page.layout = m.file.layout) (q : PageId) :
    (s.put m page).page? q = if q = page.id then some page.asStored else s.page? q := by
  have hb := bytes?_put hc hm hp hsize hi q
  split
  · next hq =>
    subst hq
    have hd := Page.decode_image hp (by
      rw [hsize]; exact Nat.le_of_lt (hc.checksumWidth_lt hm))
    rw [hl, hsize] at hd
    exact (page?_eq_some_iff (s := s.put m page) hc hm).2 ⟨_, hb.trans (if_pos rfl), hd⟩
  · next hq => exact page?_congr hc rfl (hb.trans (if_neg hq))

end

/-- A page is written through the catalog if its table is registered and may be
written, and the page has the right size and leaves no gap. -/
theorem writePage_eq_ok_iff (hc : s.catalog.Sound) {page : Page} {s' : Store} :
    s.writePage page = .ok s' ↔ ∃ m, s.catalog[page.id.table]? = some m ∧ m.faults.writes = false ∧
      page.size = m.file.pageSize ∧ page.id.index ≤ s.pages page.id.table ∧ s' = s.put m page := by
  unfold writePage
  cases hm : s.catalog[page.id.table]? with
  | none =>
    rw [Catalog.lookup, hm]
    simp
  | some m =>
    rw [Catalog.lookup_eq_ok.2 hm]
    simp only [Option.some.injEq, exists_eq_left', pages_of_mount hm]
    cases hw : m.faults.writes with
    | true => simp
    | false =>
      simp only [Bool.false_eq_true, if_false, true_and]
      constructor
      · intro h
        split at h
        · cases h
        · next v hv =>
          obtain ⟨-, hsize, hi, rfl⟩ := HeapFile.writePage_eq_ok_iff.1 hv
          exact ⟨hsize, hi, (Except.ok.inj h).symm⟩
      · rintro ⟨hsize, hi, rfl⟩
        rw [HeapFile.writePage_eq_ok_iff.2 ⟨(hc.id _ _ hm).symm, hsize, hi, rfl⟩]
        rfl

/-- Storage after a write to a table's file broke off. -/
def putPart (s : Store) (m : Mount) (page : Page) (n : Nat) : Store :=
  { s with volume := m.file.put s.volume (page.id.offset m.file.pageSize) (page.image.take n) }

theorem putPart_of_le {page : Page} {n : Nat} (h : page.image.length ≤ n) :
    s.putPart m page n = s.put m page := by
  rw [putPart, put, List.take_of_length_le h]

/-- What stands at the place of a page once the write of `new` over what was there has broken
off after `n` bytes. -/
def brokenOff (n : Nat) (new : List UInt8) : Option (List UInt8) → Option (List UInt8)
  | some old => some (new.take n ++ old.drop n)
  -- a page after the last one is not there before it is there in full
  | none => if n < new.length then none else some new

theorem brokenOff_zero {new : List UInt8} (h : new ≠ []) (old : Option (List UInt8)) :
    brokenOff 0 new old = old := by
  cases old with
  | none => exact if_pos (List.length_pos_iff.2 h)
  | some old => rfl

theorem brokenOff_of_le {n : Nat} {new : List UInt8} (h : new.length ≤ n) {old : Option (List UInt8)}
    (hold : ∀ bytes, old = some bytes → bytes.length ≤ n) : brokenOff n new old = some new := by
  cases old with
  | none => exact if_neg (Nat.not_lt.2 h)
  | some bytes =>
    rw [brokenOff, List.take_of_length_le h, List.drop_of_length_le (hold bytes rfl), List.append_nil]

/-- A write that breaks off concerns the place of its page. -/
theorem bytes?_putPart (hc : s.catalog.Sound) {page : Page}
    (hm : s.catalog[page.id.table]? = some m) (hp : page.Sound) (hsize : page.size = m.file.pageSize)
    (hi : page.id.index ≤ s.pages page.id.table) (n : Nat) (q : PageId) :
    (s.putPart m page n).bytes? q =
      if q = page.id then brokenOff n page.image (s.bytes? page.id) else s.bytes? q := by
  have hlen := length_image_of_mount hc hm hp hsize
  by_cases hfull : page.image.length ≤ n
  · -- nothing is missing
    have hall : ∀ old, s.bytes? page.id = some old → old.length ≤ n := by
      intro old hold
      rw [bytes?_of_mount hm] at hold
      obtain ⟨-, rfl⟩ := SparseFile.read_eq_some_iff.1 hold
      simpa [hlen] using hfull
    rw [putPart_of_le hfull, bytes?_put hc hm hp hsize hi, brokenOff_of_le hfull hall]
  have hn : n < page.image.length := Nat.not_le.1 hfull
  have hpart : (page.image.take n).length = n := List.length_take_of_le (Nat.le_of_lt hn)
  have hshort : (page.image.take n).length < m.file.pageSize := by rwa [hpart, ← hlen]
  by_cases ht : q.table = page.id.table
  · have hq : q = page.id ↔ q.index = page.id.index :=
      ⟨fun h => by rw [h], PageId.eq_of_index ht⟩
    have hmq : s.catalog[q.table]? = some m := ht ▸ hm
    have hmount : (s.putPart m page n).catalog[q.table]? = some m := hmq
    have hwritten : (s.putPart m page n).volume.fileOf m.file.name =
        (s.volume.fileOf m.file.name).write (page.id.index * m.file.pageSize) (page.image.take n) :=
      (HeapFile.fileOf_put _ _ _ _ _).trans (if_pos rfl)
    rw [bytes?_of_mount hmount, hwritten]
    rcases Nat.lt_or_eq_of_le hi with hin | hend
    · rw [pages_of_mount hm] at hin
      rw [SparseFile.read_write_within (Nat.le_of_lt hshort) hin, hpart, ← bytes?_of_mount hmq]
      simp only [hq]
      split
      · next heq =>
        rw [hq.2 heq]
        cases s.bytes? page.id with
        | none => exact (if_pos hn).symm
        | some old => rfl
      · rfl
    · have hnone : s.bytes? page.id = none := bytes?_eq_none hc (Nat.le_of_eq hend.symm)
      rw [pages_of_mount hm] at hend
      rw [SparseFile.read_write_part hshort hend, ← bytes?_of_mount hmq, hnone, brokenOff,
        if_pos hn]
      split
      · next heq => rw [heq, hnone]
      · rfl
  · rw [if_neg fun h => ht (by rw [h])]
    exact bytes?_of_other hc hm ht _ _

/-- If it was to put a page after the last one, and did not come to its end, no page changes. -/
theorem page?_putPart (hc : s.catalog.Sound) {page : Page}
    (hm : s.catalog[page.id.table]? = some m) (hp : page.Sound) (hsize : page.size = m.file.pageSize)
    (hi : page.id.index = s.pages page.id.table) {n : Nat} (hn : n < m.file.pageSize) (q : PageId) :
    (s.putPart m page n).page? q = s.page? q := by
  have hnone : s.bytes? page.id = none := bytes?_eq_none hc (Nat.le_of_eq hi.symm)
  have hshort : n < page.image.length := by rwa [length_image_of_mount hc hm hp hsize]
  refine page?_congr hc rfl ?_
  rw [bytes?_putPart hc hm hp hsize (Nat.le_of_eq hi), hnone, brokenOff, if_pos hshort]
  split
  · next heq => rw [heq, hnone]
  · rfl

/-! ## Faults -/

/-- Storage in which a table fails in other ways than before. -/
def withFaults (s : Store) (t : TableId) (faults : Faults) : Store :=
  match s.catalog[t]? with
  | some m => { s with catalog := s.catalog.insert t { m with faults } }
  | none => s

theorem getElem?_withFaults (s : Store) (t : TableId) (faults : Faults) (u : TableId) :
    (s.withFaults t faults).catalog[u]? =
      (s.catalog[u]?).map fun m => if u = t then { m with faults } else m := by
  unfold withFaults
  split
  · next m hm =>
    rw [Std.TreeMap.getElem?_insert]
    simp only [Std.LawfulEqCmp.compare_eq_iff_eq, eq_comm (a := t)]
    by_cases hu : u = t
    · subst hu
      simp [hm]
    · simp [hu]
  · next hm =>
    by_cases hu : u = t
    · subst hu
      simp [hm]
    · simp [hu]

/-- Both have the same bytes in the same files for the same tables. -/
structure SameFiles (s s' : Store) : Prop where
  volume : s'.volume = s.volume
  file : ∀ t, s'.file? t = s.file? t

theorem SameFiles.refl (s : Store) : SameFiles s s := ⟨rfl, fun _ => rfl⟩

theorem SameFiles.trans {s s' s'' : Store} (h : SameFiles s s') (h' : SameFiles s' s'') :
    SameFiles s s'' :=
  ⟨h'.volume.trans h.volume, fun t => (h'.file t).trans (h.file t)⟩

theorem sameFiles_withFaults (s : Store) (t : TableId) (faults : Faults) :
    SameFiles s (s.withFaults t faults) := by
  refine ⟨?_, ?_⟩
  · unfold withFaults
    split <;> rfl
  · intro u
    rw [file?, file?, getElem?_withFaults, Option.map_map]
    congr 1
    funext m
    by_cases hu : u = t <;> simp [hu]

section
variable {s' : Store} (h : SameFiles s s')

include h

theorem SameFiles.mount {t : TableId} {m : Mount} (hm : s.catalog[t]? = some m) :
    ∃ m', s'.catalog[t]? = some m' ∧ m'.file = m.file := by
  have := h.file t
  rw [file?, file?, hm] at this
  exact Option.map_eq_some_iff.1 this

theorem SameFiles.no_mount {t : TableId} (hm : s.catalog[t]? = none) : s'.catalog[t]? = none := by
  have := h.file t
  rw [file?, file?, hm] at this
  exact Option.map_eq_none_iff.1 this

theorem SameFiles.bytes (p : PageId) : s'.bytes? p = s.bytes? p := by
  unfold bytes?
  cases hm : s.catalog[p.table]? with
  | none => rw [h.no_mount hm]
  | some m =>
    obtain ⟨m', hm', hf⟩ := h.mount hm
    simp only [hm', h.volume, hf]

theorem SameFiles.page (p : PageId) : s'.page? p = s.page? p := by
  unfold page?
  cases hm : s.catalog[p.table]? with
  | none => rw [h.no_mount hm]
  | some m =>
    obtain ⟨m', hm', hf⟩ := h.mount hm
    simp only [hm', h.volume, hf]

theorem SameFiles.pages (t : TableId) : s'.pages t = s.pages t := by
  unfold Store.pages
  cases hm : s.catalog[t]? with
  | none => rw [h.no_mount hm]
  | some m =>
    obtain ⟨m', hm', hf⟩ := h.mount hm
    simp only [hm', h.volume, hf]

theorem SameFiles.fits {page : Page} (hp : s.Fits page) : s'.Fits page := by
  obtain ⟨m, hm, hl, hs⟩ := hp
  obtain ⟨m', hm', hf⟩ := h.mount hm
  exact ⟨m', hm', hf ▸ hl, hf ▸ hs⟩

theorem SameFiles.sound (hc : s.catalog.Sound) : s'.catalog.Sound := by
  have hback : ∀ (t : TableId) (m' : Mount), s'.catalog[t]? = some m' →
      ∃ m, s.catalog[t]? = some m ∧ m'.file = m.file := by
    intro t m' hm'
    cases hm : s.catalog[t]? with
    | none => rw [h.no_mount hm] at hm'; cases hm'
    | some m =>
      obtain ⟨m'', hm'', hf⟩ := h.mount hm
      rw [hm'] at hm''
      cases hm''
      exact ⟨m, rfl, hf⟩
  refine ⟨?_, ?_, ?_⟩
  · intro t m' hm'
    obtain ⟨m, hm, hf⟩ := hback t m' hm'
    rw [hf]
    exact hc.id t m hm
  · intro t m' hm'
    obtain ⟨m, hm, hf⟩ := hback t m' hm'
    rw [hf]
    exact hc.slots t m hm
  · intro t u m' n' hm' hn' he
    obtain ⟨m, hm, hf⟩ := hback t m' hm'
    obtain ⟨n, hn, hg⟩ := hback u n' hn'
    rw [hf, hg] at he
    exact hc.alone t u m n hm hn he

end

end Store
end PageStore
