import PageStore.Proofs.Disk.PageArray
import PageStore.Proofs.Pool.Serving
import PageStore.Scan.Cursor

/-!
# The last page that can be appended is one too many

A file may have `maxPages` pages, and then its last page has the number just
below that. An append asks whether the page to be made is the next one; it does
not ask whether the count may still grow. The number `maxPages` is a page number
like any other, so a page is appended to a file that is as long as it may be.
From then on the file has more pages than can be counted, and all that starts
with the count fails: every insert into the table and every scan of it.

Results:
* `fileSize_appendPage`: an append ends the file behind the page it made.
* `append_counts`: an append succeeds if the row is of the table's layout; then
  there is one page more, or the table is `Barred`.
* `exists_append_barring`: the latter does happen.
-/
namespace PageStore.HeapFile

open Engine (firstImage not_full_empty)

variable {f : HeapFile} {v v' : Volume} {n : Nat} {tuple : Tuple} {page : Page}

/-- The page count fails, and with it every insert of a row of the table's layout,
and every scan once it has to go on to another page. -/
structure Barred (f : HeapFile) (v : Volume) (x : Error) : Prop where
  count : f.pageCount v = .error x
  insert : ∀ (tuple : Tuple) (installs : Bool), tuple.layout.agrees f.layout = true →
    f.beginInsert v tuple installs = .done (.error x)
  scan : ∀ (c : Cursor) (left : Option Nat), c.file = f → c.rows = [] → c.ended = false →
    left ≠ some 0 → c.take v left = .complete (Cursor.failure left x) c.stop

theorem barred_of_pageCount {x : Error} (h : f.pageCount v = .error x) : f.Barred v x := by
  refine ⟨h, fun tuple installs ha => ?_, fun c left hc hr he hl => ?_⟩
  · rw [beginInsert, if_pos ha, h]
  · subst hc
    obtain ⟨file, nextPage, rows, ended⟩ := c
    dsimp only at h hr he
    subst hr he
    cases left with
    | none => simp [Cursor.take, Cursor.takeRows, Cursor.contented, h, Cursor.stop]
    | some k =>
      have hk : k ≠ 0 := fun h0 => hl (by rw [h0])
      simp [Cursor.take, Cursor.takeRows, Cursor.contented, hk, h, Cursor.stop]

/-- An append puts the row on an empty page, and stores one of the two. -/
theorem appendPage_eq_ok_iff : f.appendPage v n tuple = .ok (v', page) ↔
    ∃ r, (Page.empty ⟨f.id, n⟩ f.layout f.pageSize).insert tuple = .ok (page, r) ∧
      f.writePage v (firstImage f ⟨f.id, n⟩ page) = .ok v' := by
  unfold appendPage firstImage
  cases f.append with
  | extendEmpty =>
    dsimp only
    cases f.writePage v (Page.empty ⟨f.id, n⟩ f.layout f.pageSize) with
    | error x => simp
    | ok u =>
      dsimp only
      cases (Page.empty ⟨f.id, n⟩ f.layout f.pageSize).insert tuple with
      | error x => simp
      | ok filled => simp [Prod.ext_iff, and_comm]
  | writeThrough =>
    dsimp only
    cases (Page.empty ⟨f.id, n⟩ f.layout f.pageSize).insert tuple with
    | error x => simp
    | ok filled =>
      dsimp only
      cases hw : f.writePage v filled.1 with
      | error x =>
        simp only [reduceCtorEq, false_iff]
        rintro ⟨r, hf, hv⟩
        cases hf
        cases hw.symm.trans hv
      | ok u =>
        simp only [Except.ok.injEq, Prod.ext_iff]
        constructor
        · rintro ⟨rfl, rfl⟩
          exact ⟨filled.2, ⟨rfl, rfl⟩, hw⟩
        · rintro ⟨r, ⟨rfl, -⟩, hv⟩
          exact ⟨Except.ok.inj (hw.symm.trans hv), rfl⟩

section
variable {r : RecordId}
  (hf : (Page.empty ⟨f.id, n⟩ f.layout f.pageSize).insert tuple = .ok (page, r))

include hf

/-- The page that an append stores stands at the number asked for. -/
theorem firstImage_place : (firstImage f ⟨f.id, n⟩ page).id = ⟨f.id, n⟩ ∧
    (firstImage f ⟨f.id, n⟩ page).size = f.pageSize := by
  obtain ⟨slot, -, -, -, rfl⟩ := Page.insert_eq_ok hf
  unfold firstImage
  cases f.append <;> exact ⟨rfl, rfl⟩

theorem sound_firstImage (ht : tuple.Sound) : (firstImage f ⟨f.id, n⟩ page).Sound := by
  have hempty := Page.sound_empty ⟨f.id, n⟩ f.layout f.pageSize
  unfold firstImage
  cases f.append with
  | extendEmpty => exact hempty
  | writeThrough => exact hempty.insert ht hf

end

section
variable (hs : Geometry.slotCount f.pageSize f.layout.width ≠ 0)

include hs

/-- At the end of its file a page can be appended for every row of the layout. -/
theorem appendPage_isOk_iff (hn : n = f.places v) :
    (∃ v' page, f.appendPage v n tuple = .ok (v', page)) ↔ tuple.layout.agrees f.layout = true := by
  constructor
  · rintro ⟨v', page, h⟩
    obtain ⟨r, hf, -⟩ := appendPage_eq_ok_iff.1 h
    obtain ⟨slot, -, ha, -⟩ := Page.insert_eq_ok hf
    exact ha
  · intro ha
    obtain ⟨page, r, hf⟩ := Page.insert_isOk (p := Page.empty ⟨f.id, n⟩ f.layout f.pageSize) ha
      (not_full_empty hs)
    have hid := firstImage_place hf
    refine ⟨_, page, appendPage_eq_ok_iff.2 ⟨r, hf, writePage_eq_ok_iff.2 ⟨?_, hid.2, ?_, rfl⟩⟩⟩
    · rw [hid.1]
    · rw [hid.1, hn]

/-- The new page is the last one, and whatever part of a page stood there is gone. -/
theorem fileSize_appendPage (ht : tuple.Sound) (hn : n = f.places v)
    (h : f.appendPage v n tuple = .ok (v', page)) : f.fileSize v' = (n + 1) * f.pageSize := by
  obtain ⟨r, hf, hw⟩ := appendPage_eq_ok_iff.1 h
  obtain ⟨hid, hsize⟩ := firstImage_place hf
  obtain ⟨-, -, -, rfl⟩ := writePage_eq_ok_iff.1 hw
  have hlen := length_image_of_size hs (sound_firstImage hf ht) hsize
  have hpos := pageSize_pos hs
  have hend : f.fileSize v < (n + 1) * f.pageSize := by
    rw [hn]
    exact (Nat.div_lt_iff_lt_mul hpos).1 (Nat.lt_succ_self _)
  rw [fileSize, fileOf_put, if_pos rfl,
    SparseFile.size_write _ _ (by rintro h0; simp [h0] at hlen; omega),
    hlen, hid, PageId.offset, ← Nat.succ_mul]
  exact Nat.max_eq_right (Nat.le_of_lt hend)

end

/-- A page can be appended to a table of `n` pages for every row of its layout. Then
the table has one page more; but if it had as many pages as it may have, nobody can
tell any longer how many it has. -/
theorem append_counts {id : TableId} {name : String} {layout : Layout} {pageSize : Nat}
    {append : AppendPolicy} (hf : make id name layout pageSize append = .ok f)
    (hn : f.pageCount v = .ok n) (ht : tuple.Sound) :
    ((∃ v' page, f.appendPage v n tuple = .ok (v', page)) ↔ tuple.layout.agrees f.layout = true) ∧
      ∀ v' page, f.appendPage v n tuple = .ok (v', page) →
        (n < maxPages → f.pageCount v' = .ok (n + 1)) ∧
        (n = maxPages → f.Barred v'
          (.invalidArgument (.tooManyPages ((maxPages + 1) * f.pageSize) maxPages f.pageSize))) := by
  have hs := (of_make hf).2
  obtain ⟨hcount, -⟩ := pageCount_eq_ok_iff.1 hn
  refine ⟨appendPage_isOk_iff hs hcount, fun v' page h => ?_⟩
  have hsize := fileSize_appendPage hs ht hcount h
  have hdiv : (n + 1) * f.pageSize / f.pageSize = n + 1 := Nat.mul_div_cancel _ (pageSize_pos hs)
  constructor
  · intro hlt
    rw [pageCount_eq_ok_iff, hsize, hdiv]
    exact ⟨rfl, hlt⟩
  · rintro rfl
    refine barred_of_pageCount ?_
    rw [pageCount, hsize, pagesIn, hdiv, if_neg (Nat.not_succ_le_self _)]

/-! ## A file that is as long as it may be -/

/-- A table of pages with one slot. -/
def narrowFile : HeapFile := ⟨.numbered 1, "rows", .ofTypes [.int], 9, .extendEmpty⟩

/-- Its file has all pages that it may have. -/
def longestVolume : Volume := (∅ : Volume).insert "rows" (SparseFile.empty.resize (maxPages * 9))

def narrowRow : Tuple := ⟨.ofTypes [.int], [.int 5], none⟩

theorem pageCount_longestVolume : narrowFile.pageCount longestVolume = .ok maxPages := by decide +kernel

theorem append_counts_longestVolume :
    make (.numbered 1) "rows" (.ofTypes [.int]) 9 .extendEmpty = .ok narrowFile ∧
      narrowFile.pageCount longestVolume = .ok maxPages ∧ narrowRow.Sound ∧
      ∃ v page, narrowFile.appendPage longestVolume maxPages narrowRow = .ok (v, page) ∧
        narrowFile.Barred v (.invalidArgument (.tooManyPages 38654705664 maxPages 9)) := by
  have hmake : make (.numbered 1) "rows" (.ofTypes [.int]) 9 .extendEmpty = .ok narrowFile := rfl
  have hrow : narrowRow.Sound := ⟨rfl, rfl⟩
  obtain ⟨happend, hthen⟩ := append_counts hmake pageCount_longestVolume hrow
  obtain ⟨v, page, h⟩ := happend.2 rfl
  exact ⟨hmake, pageCount_longestVolume, hrow, v, page, h, (hthen v page h).2 rfl⟩

/-- An append may leave the table with more pages than can be counted. -/
theorem exists_append_barring :
    ∃ (f : HeapFile) (v v' : Volume) (n : Nat) (tuple : Tuple) (page : Page),
      make (.numbered 1) "rows" (.ofTypes [.int]) 9 .extendEmpty = .ok f ∧ f.pageCount v = .ok n ∧
        tuple.Sound ∧ f.appendPage v n tuple = .ok (v', page) ∧ f.pageCount v' ≠ .ok (n + 1) := by
  have hrow : narrowRow.Sound := ⟨rfl, rfl⟩
  have hs : Geometry.slotCount narrowFile.pageSize narrowFile.layout.width ≠ 0 := by decide
  have hcount : maxPages = narrowFile.places longestVolume :=
    (pageCount_eq_ok_iff.1 pageCount_longestVolume).1
  obtain ⟨v, page, h⟩ :
      ∃ v page, narrowFile.appendPage longestVolume maxPages narrowRow = .ok (v, page) :=
    (appendPage_isOk_iff hs hcount).2 rfl
  refine ⟨narrowFile, longestVolume, v, maxPages, narrowRow, page, rfl, pageCount_longestVolume,
    hrow, h, ?_⟩
  intro hc
  have hle := (pageCount_eq_ok_iff.1 hc).2
  exact Nat.not_succ_le_self _ hle

end PageStore.HeapFile
