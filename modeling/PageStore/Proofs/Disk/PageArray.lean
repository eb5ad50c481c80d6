import PageStore.Proofs.Disk.Pages
import PageStore.Proofs.Page.Calls

/-!
# A heap file as an array of pages

How many pages a heap file has is nowhere written down: it is the quotient of
its length and the page size. A write at a place below that count covers exactly
the bytes of one page; a write at the count itself starts where the last whole
page ends, so it covers whatever part of a page followed, and the quotient grows
by one. Nothing else is written, so a page that was written stays as it is until
another is written in its place, and every place that was written can be read.

`Written` keeps, beside a volume, the page last written at each place. `IsArray`
says that the file is then an array of pages; it holds after any attempts to
write, from any file.

Results:
* `contents_write`: what a write does to the bytes of a file.
* `decode_image_of_agrees`: a stored page is read under every layout of its types.
* `holds_attempt`: one attempt keeps all written pages in place.
* `isArray_attemptAll`: the file is an array of pages.
-/
namespace PageStore

namespace SparseFile

theorem getElem?_contents (f : SparseFile) (k : Nat) :
    f.contents[k]? = if k < f.size then some (f.byteAt k) else none := by
  by_cases hk : k < f.size
  · simp [contents, bytesAt, hk]
  · simp [contents, bytesAt, hk]

/-- A write that starts within the file puts its bytes there and leaves the others. -/
theorem contents_write {f : SparseFile} {start : Nat} (bytes : List UInt8) (h : start ≤ f.size) :
    (f.write start bytes).contents =
      f.contents.take start ++ bytes ++ f.contents.drop (start + bytes.length) := by
  by_cases hne : bytes = []
  · subst hne
    simp [write]
  have hlen : (f.contents.take start).length = start := by
    rw [List.length_take, contents, length_bytesAt]
    omega
  refine List.ext_getElem? fun k => ?_
  rw [getElem?_contents, size_write f start hne, byteAt_write, List.append_assoc]
  by_cases hlow : k < start
  · have hk : k < max f.size (start + bytes.length) := by omega
    have hold : k < f.size := by omega
    rw [List.getElem?_append_left (by omega), List.getElem?_take_of_lt hlow, getElem?_contents,
      if_pos hk, if_neg (Nat.not_le.2 hlow), if_pos hold]
  rw [List.getElem?_append_right (by omega), hlen, if_pos (Nat.not_lt.1 hlow)]
  by_cases hin : k < start + bytes.length
  · have hk : k < max f.size (start + bytes.length) := by omega
    have hplace : k - start < bytes.length := by omega
    rw [List.getElem?_append_left hplace, if_pos hk, List.getElem?_eq_getElem hplace, Option.getD_some]
  · have hk : k < max f.size (start + bytes.length) ↔ k < f.size := by omega
    rw [List.getElem?_append_right (by omega), List.getElem?_drop, getElem?_contents,
      show start + bytes.length + (k - start - bytes.length) = k by omega,
      List.getElem?_eq_none (by omega), Option.getD_none]
    simp only [hk]

end SparseFile

/-- The names of columns do not matter to a reader: a page is read back, with the
same rows, under every layout that agrees with its own. -/
theorem Page.decode_image_of_agrees {p : Page} {layout : Layout} (hp : p.Sound)
    (hsize : Geometry.checksumWidth ≤ p.size) (hl : p.layout.agrees layout = true) :
    ∃ q, decode p.id layout p.size p.image = .ok q ∧ p.sameContent q = true := by
  have htypes := Layout.agrees_iff.1 hl
  have hwidth : p.layout.width = layout.width := by rw [Layout.width, Layout.width, htypes]
  have hr : Sound { p with layout } := by
    refine ⟨by rw [← hwidth]; exact hp.length, fun i t ht => ?_⟩
    obtain ⟨hrecord, hlayout, hsound⟩ := hp.row i t ht
    exact ⟨hrecord, hlayout.trans htypes, hsound⟩
  have himage : image { p with layout } = p.image := image_congr rfl hwidth.symm rfl
  have hd := decode_image hr hsize
  rw [himage] at hd
  refine ⟨_, hd, (sameContent_iff hp (sound_asStored hr)).2 ⟨rfl, rfl, htypes, ?_⟩⟩
  rw [grid_asStored]
  rfl

namespace HeapFile

variable {f : HeapFile} {v u : Volume} {p : Page} {i : Nat}

/-- Pages of other tables, pages of another size and pages that would leave a gap are refused. -/
theorem writePage_refused
    (h : p.id.table ≠ f.id ∨ p.size ≠ f.pageSize ∨ f.places v < p.id.index) :
    ∃ reason, f.writePage v p = .error (.invalidArgument reason) := by
  unfold places at h
  unfold writePage checkOwner
  by_cases hid : p.id.table = f.id
  · by_cases hsize : p.size = f.pageSize
    · have hi : f.fileSize v / f.pageSize < p.id.index := by simpa [hid, hsize] using h
      simp [hid, hsize, hi]
    · simp [hid, hsize]
  · simp [hid]

/-! ## Attempts to write -/

/-- A volume, and the page last written at each place of a file in it. -/
structure Written where
  volume : Volume
  last : Nat → Option Page

/-- One attempt to write a page. A refused one changes nothing. -/
def attempt (f : HeapFile) (s : Written) (p : Page) : Written :=
  match f.writePage s.volume p with
  | .ok v => ⟨v, fun i => if i = p.id.index then some p else s.last i⟩
  | .error _ => s

/-- Attempts one after another, from a file in which nothing was written so far. -/
def attemptAll (f : HeapFile) (v : Volume) (pages : List Page) : Written :=
  pages.foldl f.attempt ⟨v, fun _ => none⟩

/-- The bytes at a place, if the file has that place. -/
def bytesAt? (f : HeapFile) (v : Volume) (i : Nat) : Option (List UInt8) :=
  (v.fileOf f.name).read (i * f.pageSize) f.pageSize

/-- Every page last written at a place stands there. -/
def Holds (f : HeapFile) (s : Written) : Prop :=
  ∀ i p, s.last i = some p → p.Sound ∧ p.layout.agrees f.layout = true ∧ p.id = ⟨f.id, i⟩ ∧
    p.size = f.pageSize ∧ f.bytesAt? s.volume i = some p.image

section
variable (hf : Geometry.slotCount f.pageSize f.layout.width ≠ 0)

include hf

theorem pageSize_pos : 0 < f.pageSize := Nat.zero_lt_of_lt (Geometry.lt_of_slotCount hf)

theorem length_image_of_size (hp : p.Sound) (hsize : p.size = f.pageSize) :
    p.image.length = f.pageSize := by
  have hlt := Geometry.lt_of_slotCount hf
  rw [Page.length_image hp (by omega), hsize]

/-- A place can be read exactly if it is below the count. -/
theorem bytesAt?_eq_none_iff : f.bytesAt? v i = none ↔ f.places v ≤ i := by
  have hpos := pageSize_pos hf
  have hread : i * f.pageSize + f.pageSize ≤ (v.fileOf f.name).size ↔ i < f.places v := by
    rw [← Nat.succ_mul, ← Nat.le_div_iff_mul_le hpos]
    exact Iff.rfl
  unfold bytesAt? SparseFile.read
  simp [hread]

theorem readPage_eq_error (hi : f.places v ≤ i) : ∃ e, f.readPage v ⟨f.id, i⟩ = .error e := by
  have hnone := (bytesAt?_eq_none_iff hf).2 hi
  unfold bytesAt? at hnone
  exact ⟨.io .endOfFile, by simp [readPage, checkOwner, PageId.offset, hnone]⟩

/-- The bytes at every place after a page was put at one. -/
theorem bytesAt?_put (hp : p.Sound) (hsize : p.size = f.pageSize) (hi : p.id.index ≤ f.places v) :
    f.bytesAt? (f.put v (p.id.offset f.pageSize) p.image) i =
      if i = p.id.index then some p.image else f.bytesAt? v i := by
  unfold bytesAt? PageId.offset
  rw [fileOf_put, if_pos rfl]
  exact SparseFile.read_write_place (pageSize_pos hf) (length_image_of_size hf hp hsize) hi

theorem places_put (hp : p.Sound) (hsize : p.size = f.pageSize) :
    f.places (f.put v (p.id.offset f.pageSize) p.image) = max (f.places v) (p.id.index + 1) := by
  unfold places fileSize PageId.offset
  rw [fileOf_put, if_pos rfl]
  exact SparseFile.size_write_place (pageSize_pos hf) (length_image_of_size hf hp hsize)

/-- The bytes of the file after a page was put at a place. -/
theorem contents_put (hp : p.Sound) (hsize : p.size = f.pageSize) (hi : p.id.index ≤ f.places v) :
    ((f.put v (p.id.offset f.pageSize) p.image).fileOf f.name).contents =
      (v.fileOf f.name).contents.take (p.id.index * f.pageSize) ++ p.image ++
        (v.fileOf f.name).contents.drop ((p.id.index + 1) * f.pageSize) := by
  have hstart : p.id.index * f.pageSize ≤ (v.fileOf f.name).size :=
    (Nat.le_div_iff_mul_le (pageSize_pos hf)).1 hi
  rw [fileOf_put, if_pos rfl, PageId.offset, SparseFile.contents_write _ hstart,
    length_image_of_size hf hp hsize, Nat.succ_mul]

/-! ## What stays written -/

theorem holds_attempt {s : Written} (hs : f.Holds s) (hp : p.Sound)
    (hl : p.id.table = f.id → p.layout.agrees f.layout = true) : f.Holds (f.attempt s p) := by
  unfold attempt
  split
  · next v hv =>
    obtain ⟨hid, hsize, hi, rfl⟩ := writePage_eq_ok_iff.1 hv
    intro i q hq
    dsimp only at hq
    rw [bytesAt?_put hf hp hsize hi]
    split at hq
    · next he =>
      cases hq
      rw [if_pos he]
      exact ⟨hp, hl hid, PageId.eq_of_index hid he.symm, hsize, rfl⟩
    · next he =>
      rw [if_neg he]
      exact hs i q hq
  · exact hs

theorem holds_attempts : ∀ (pages : List Page) {s : Written}, f.Holds s →
    (∀ p ∈ pages, p.Sound ∧ (p.id.table = f.id → p.layout.agrees f.layout = true)) →
      f.Holds (pages.foldl f.attempt s)
  | [], _, hs, _ => hs
  | p :: pages, s, hs, hpages => by
    obtain ⟨⟨hp, hl⟩, hpages⟩ := List.forall_mem_cons.1 hpages
    exact holds_attempts pages (holds_attempt hf hs hp hl) hpages

/-- A page that stands at its place is read there. -/
theorem Holds.read {s : Written} (hs : f.Holds s) (h : s.last i = some p) :
    i < f.places s.volume ∧
      ∃ q, f.readPage s.volume ⟨f.id, i⟩ = .ok q ∧ p.sameContent q = true := by
  obtain ⟨hp, hl, hid, hsize, hb⟩ := hs i p h
  have hlt := Geometry.lt_of_slotCount hf
  obtain ⟨q, hq, hsame⟩ := Page.decode_image_of_agrees hp (by omega) hl
  refine ⟨?_, q, ?_, hsame⟩
  · by_contra hi
    rw [(bytesAt?_eq_none_iff hf).2 (Nat.not_lt.1 hi)] at hb
    cases hb
  · rw [hid, hsize] at hq
    unfold bytesAt? at hb
    simp [readPage, checkOwner, PageId.offset, hb, hq]

end

/-! ## The array -/

/-- The file is an array of pages: the `last` written page of each place stands there,
and the next write does to it what a write does to an array. -/
structure IsArray (f : HeapFile) (s : Written) : Prop where
  /-- every place that was written is read as the page last written there -/
  read : ∀ i p, s.last i = some p → i < f.places s.volume ∧
    ∃ q, f.readPage s.volume ⟨f.id, i⟩ = .ok q ∧ p.sameContent q = true
  /-- there is nothing to read from the count on -/
  past : ∀ i, f.places s.volume ≤ i → ∃ e, f.readPage s.volume ⟨f.id, i⟩ = .error e
  /-- as long as a page number can hold it, the count is known -/
  count : f.places s.volume < maxPages → f.pageCount s.volume = .ok (f.places s.volume)
  /-- a page written below the count replaces exactly the bytes of its place -/
  replace : f.places s.volume < maxPages → ∀ p : Page, p.Sound → p.id.table = f.id →
    p.size = f.pageSize → p.id.index < f.places s.volume →
    ∃ v bytes, f.writePage s.volume p = .ok v ∧ p.encode = .ok bytes ∧ bytes.length = f.pageSize ∧
      (v.fileOf f.name).contents =
        (s.volume.fileOf f.name).contents.take (p.id.index * f.pageSize) ++ bytes ++
          (s.volume.fileOf f.name).contents.drop ((p.id.index + 1) * f.pageSize) ∧
      f.pageCount v = .ok (f.places s.volume)
  /-- a page written at the count is appended to the whole pages, over what followed them -/
  extend : f.places s.volume < maxPages → ∀ p : Page, p.Sound → p.id.table = f.id →
    p.size = f.pageSize → p.id.index = f.places s.volume →
    ∃ v bytes, f.writePage s.volume p = .ok v ∧ p.encode = .ok bytes ∧ bytes.length = f.pageSize ∧
      (v.fileOf f.name).contents =
        (s.volume.fileOf f.name).contents.take (f.places s.volume * f.pageSize) ++ bytes ∧
      f.pageCount v = .ok (f.places s.volume + 1)
  /-- any other page is refused, and then nothing has changed -/
  refuse : ∀ p : Page,
    p.id.table ≠ f.id ∨ p.size ≠ f.pageSize ∨ f.places s.volume < p.id.index →
    (∃ reason, f.writePage s.volume p = .error (.invalidArgument reason)) ∧ f.attempt s p = s

section
variable (hf : Geometry.slotCount f.pageSize f.layout.width ≠ 0)

include hf

/-- Writing a page over another, or after the last one. -/
theorem writePage_spec (hp : p.Sound) (hid : p.id.table = f.id) (hsize : p.size = f.pageSize)
    (hi : p.id.index ≤ f.places v) (hmax : f.places v < maxPages) :
    ∃ u bytes, f.writePage v p = .ok u ∧ p.encode = .ok bytes ∧ bytes.length = f.pageSize ∧
      (u.fileOf f.name).contents =
        (v.fileOf f.name).contents.take (p.id.index * f.pageSize) ++ bytes ++
          (v.fileOf f.name).contents.drop ((p.id.index + 1) * f.pageSize) ∧
      f.pageCount u = .ok (max (f.places v) (p.id.index + 1)) := by
  have hlt := Geometry.lt_of_slotCount hf
  refine ⟨_, p.image, writePage_eq_ok_iff.2 ⟨hid, hsize, hi, rfl⟩, Page.encode_eq hp (by omega),
    length_image_of_size hf hp hsize, contents_put hf hp hsize hi, ?_⟩
  rw [pageCount_eq_ok_iff]
  exact ⟨(places_put hf hp hsize).symm, by omega⟩

theorem isArray_of_holds {s : Written} (hs : f.Holds s) : f.IsArray s := by
  refine ⟨fun i p h => hs.read hf h, fun i hi => readPage_eq_error hf hi, fun hmax => ?_,
    fun hmax p hp hid hsize hi => ?_, fun hmax p hp hid hsize hi => ?_, fun p h => ?_⟩
  · exact pageCount_eq_ok_iff.2 ⟨rfl, Nat.le_of_lt hmax⟩
  · obtain ⟨u, bytes, hu, he, hlen, hc, hn⟩ := writePage_spec hf hp hid hsize (Nat.le_of_lt hi) hmax
    rw [Nat.max_eq_left hi] at hn
    exact ⟨u, bytes, hu, he, hlen, hc, hn⟩
  · obtain ⟨u, bytes, hu, he, hlen, hc, hn⟩ := writePage_spec hf hp hid hsize (Nat.le_of_eq hi) hmax
    rw [hi, Nat.max_eq_right (Nat.le_succ _)] at hn
    refine ⟨u, bytes, hu, he, hlen, ?_, hn⟩
    -- what followed the last whole page is shorter than the page written over it
    have hend : (s.volume.fileOf f.name).size < (f.places s.volume + 1) * f.pageSize :=
      (Nat.div_lt_iff_lt_mul (pageSize_pos hf)).1 (Nat.lt_succ_self _)
    rw [hc, hi, List.drop_eq_nil_of_le, List.append_nil]
    rw [SparseFile.contents, SparseFile.length_bytesAt]
    exact Nat.le_of_lt hend
  · obtain ⟨reason, hr⟩ := writePage_refused h
    exact ⟨⟨reason, hr⟩, by rw [attempt, hr]⟩

end

/-- Whatever a file held, and whatever pages were then written to it or refused, it is
an array of pages. The pages are sound, as all pages are, and those of its own table
have its layout. -/
theorem isArray_attemptAll {id : TableId} {name : String} {layout : Layout} {pageSize : Nat}
    {append : AppendPolicy} (hf : make id name layout pageSize append = .ok f) (v : Volume)
    (pages : List Page)
    (hpages : ∀ p ∈ pages, p.Sound ∧ (p.id.table = f.id → p.layout.agrees f.layout = true)) :
    f.IsArray (f.attemptAll v pages) := by
  have hslots := (of_make hf).2
  have hstart : f.Holds ⟨v, fun _ => none⟩ := fun i p h => by cases h
  exact isArray_of_holds hslots (holds_attempts hslots pages hstart hpages)

/-- A page of one slot that holds one integer. -/
def rowPage (table i : Nat) (n : Int32) : Page :=
  ⟨⟨.numbered table, i⟩, .ofTypes [.int], 9,
    [some ⟨.ofTypes [.int], [.int n], some ⟨⟨.numbered table, i⟩, 0⟩⟩], none⟩

theorem sound_rowPage (table i : Nat) (n : Int32) : (rowPage table i n).Sound := by
  have hslots : 1 = Geometry.slotCount 9 (Layout.ofTypes [.int]).width := by decide
  refine ⟨hslots, fun j t ht => ?_⟩
  cases j with
  | zero =>
    cases ht
    exact ⟨rfl, rfl, rfl, rfl⟩
  | succ j => cases ht

/-- A table of such pages, in a file of one page of something else and a third of a page. -/
def raggedFile : HeapFile := ⟨.numbered 1, "rows", .ofTypes [.int], 9, .extendEmpty⟩

def raggedVolume : Volume :=
  (∅ : Volume).insert "rows" (SparseFile.empty.write 0 (List.replicate 12 0xAA))

/-- The second page would leave a gap, and the third belongs to another table. -/
def raggedPages : List Page :=
  [rowPage 1 0 5, rowPage 1 3 1, rowPage 2 0 2, rowPage 1 1 6, rowPage 1 0 8]

theorem isArray_attemptAll_raggedFile :
    make (.numbered 1) "rows" (.ofTypes [.int]) 9 .extendEmpty = .ok raggedFile ∧
      (∃ q, raggedFile.readPage (raggedFile.attemptAll raggedVolume raggedPages).volume
          ⟨.numbered 1, 0⟩ = .ok q ∧ (rowPage 1 0 8).sameContent q = true) ∧
      (∃ e, raggedFile.readPage (raggedFile.attemptAll raggedVolume raggedPages).volume
          ⟨.numbered 1, 2⟩ = .error e) ∧
      ∃ v, raggedFile.writePage (raggedFile.attemptAll raggedVolume raggedPages).volume
          (rowPage 1 2 9) = .ok v ∧ raggedFile.pageCount v = .ok 3 := by
  have hmake : make (.numbered 1) "rows" (.ofTypes [.int]) 9 .extendEmpty = .ok raggedFile := rfl
  have hpages : ∀ p ∈ raggedPages,
      p.Sound ∧ (p.id.table = raggedFile.id → p.layout.agrees raggedFile.layout = true) := by
    simp only [raggedPages, List.forall_mem_cons]
    exact ⟨⟨sound_rowPage .., fun _ => rfl⟩, ⟨sound_rowPage .., fun _ => rfl⟩,
      ⟨sound_rowPage .., fun _ => rfl⟩, ⟨sound_rowPage .., fun _ => rfl⟩,
      ⟨sound_rowPage .., fun _ => rfl⟩, fun p hp => absurd hp List.not_mem_nil⟩
  have hplaces : raggedFile.places (raggedFile.attemptAll raggedVolume raggedPages).volume = 2 := by
    decide +kernel
  have hlast : (raggedFile.attemptAll raggedVolume raggedPages).last 0 = some (rowPage 1 0 8) := by
    decide +kernel
  have h := isArray_attemptAll hmake raggedVolume raggedPages hpages
  obtain ⟨v, bytes, hv, -, -, -, hcount⟩ :=
    h.extend (by rw [hplaces]; decide) (rowPage 1 2 9) (sound_rowPage ..) rfl rfl hplaces.symm
  rw [hplaces] at hcount
  exact ⟨hmake, (h.read 0 _ hlast).2, h.past 2 (Nat.le_of_eq hplaces), v, hv, hcount⟩

end HeapFile
end PageStore
