import PageStore.Proofs.Interleaving.Scanning
import PageStore.Proofs.Pool.FailedInsert
import PageStore.Proofs.Pool.Twins

/-!
# What a scan collects

A scan that nobody disturbs fetches the pages of its file one after another. That
changes nothing that is seen on any page: the pages that come into the cache show what
is stored, and only clean pages leave it. So a scan yields the rows that were seen
before it began, whatever it evicts on its way. It may be set back to its start at any
time, and then it yields the same rows again.

A page that cannot be had ends the scan. Its error is yielded after the rows of the
pages before, and nothing comes after it.

This takes tables that do not share files: otherwise a page in the cache may be out of
date, and a scan that evicts it finds other rows when it begins anew.

Results:
* `got_perform`: what fetching a page comes to.
* `take_pages`: what a cursor that takes all has got after a number of pages.
* `scans_collect`: what scans yield, in any engine that can be reached.
* `exists_scan_changed`: a scan that yields other rows after it was set back.
-/
namespace PageStore

/-- Pages of the file, from one on. -/
def HeapFile.pageIds (f : HeapFile) (first count : Nat) : List PageId :=
  (List.range' first count).map fun i => ⟨f.id, i⟩

theorem HeapFile.pageIds_succ (f : HeapFile) (first count : Nat) :
    f.pageIds first (count + 1) = ⟨f.id, first⟩ :: f.pageIds (first + 1) count := by
  rw [pageIds, List.range'_succ, List.map_cons]
  rfl

namespace Cursor

/-- A cursor keeps to its file. -/
theorem file_take (c : Cursor) (v : Volume) (left : Option Nat) :
    (c.take v left).cursor.file = c.file := by
  have hrows : (c.takeRows left).2.1.file = c.file := by cases left <;> rfl
  unfold take
  generalize c.takeRows left = taken at *
  dsimp only
  split
  · exact hrows
  · split
    · exact hrows
    · split
      · exact hrows
      · split <;> exact hrows

end Cursor

namespace Engine

variable {e e' e1 e2 : Engine} {t : TxnId} {ticket : Ticket} {p : PageId} {mode : LockMode}

/-! ## Looking at pages -/

/-- Nothing has changed, and `t` has let go of nothing. -/
structure Looked (t : TxnId) (e e' : Engine) : Prop extends Quiet e e' where
  backed : Backed e'
  kept : ∀ p, e.pool.locks.holds t p = true → e'.pool.locks.holds t p = true

theorem Looked.refl (hb : Backed e) (t : TxnId) : Looked t e e := ⟨.refl e, hb, fun _ h => h⟩

theorem Looked.trans (h1 : Looked t e e1) (h2 : Looked t e1 e2) : Looked t e e2 :=
  ⟨h1.toQuiet.trans h2.toQuiet, h2.backed, fun p h => h2.kept p (h1.kept p h)⟩

theorem Looked.rowsAt (h : Looked t e e1) (p : PageId) : e1.rowsAt p = e.rowsAt p := by
  rw [Engine.rowsAt, Engine.rowsAt, h.content]

/-- `t` has got the page: it shows what was seen there, and `t` holds it. -/
structure Got (t : TxnId) (p : PageId) (page : Page) (e e' : Engine) : Prop extends Looked t e e' where
  holds : e'.pool.locks.holds t p = true
  shown : e.content? p = some page.grid
  id : page.id = p
  sound : page.Sound

theorem Got.rows {page : Page} (h : Got t p page e e') : page.rows.map Tuple.plain = e.rowsAt p := by
  rw [h.sound.plain_rows, h.id, Engine.rowsAt, h.shown]
  rfl

theorem looked_withLocks (hb : Backed e) {locks : LockTable Purpose}
    (hkept : ∀ p, e.pool.locks.holds t p = true → locks.holds t p = true) :
    Looked t e (e.withLocks locks) :=
  ⟨⟨rfl, fun _ => rfl⟩, hb.withLocks locks, hkept⟩

theorem looked_load (hb : Backed e) (t : TxnId) (p : PageId) : Looked t e (e.load p).1 := by
  have hturn : Turnover e (e.load p).1 := load_turnover rfl
  refine ⟨hturn.quiet hb, hb.reload hturn.reload (tidy_load hb.tidy p), ?_⟩
  intro q hq
  rwa [hturn.rules.locks]

theorem engine_serveFetch (e : Engine) (p : PageId) : (e.serveFetch p).1 = (e.load p).1 := by
  unfold serveFetch
  rcases e.load p with ⟨e', x | f⟩ <;> rfl

/-- A turn of a fetch is a look at the page, if there is one. -/
theorem got_turn (hb : Backed e) {which : Turn} {progress : Progress}
    (h : e.turn ticket ⟨t, p, mode, .fetch⟩ which = (e', progress)) :
    Looked t e e' ∧ ∀ f page, progress = .done (.ok (.fetched f page)) → Got t p page e e' := by
  have hkept := fun q (hq : e.pool.locks.holds t q = true) =>
    LockTable.holds_request hq ticket ⟨t, p, mode, .fetch⟩ which
  rcases turn_cases e ticket ⟨t, p, mode, .fetch⟩ which with ⟨hg, he⟩ | ⟨-, he⟩ | ⟨-, he⟩
  · have hholds := LockTable.holds_of_granted hg
    generalize (e.pool.locks.request ticket ⟨t, p, mode, .fetch⟩ which).1 = locks at *
    obtain ⟨rfl, rfl⟩ := Prod.mk.inj (h.symm.trans he)
    have hbl := hb.withLocks locks
    have hlooked : Looked t e ((e.withLocks locks).serve t p .fetch).1 := by
      rw [serve, engine_serveFetch]
      exact (looked_withLocks hb hkept).trans (looked_load hbl t p)
    refine ⟨hlooked, fun f page hpage => ?_⟩
    obtain ⟨-, hvisible, hlocks⟩ := serveFetch_eq_ok (progressOf_done hpage)
    obtain ⟨hid, hsound, -⟩ := hbl.visible hvisible
    refine ⟨hlooked, ?_, congrArg (Option.map Page.grid) hvisible, hid, hsound⟩
    change ((e.withLocks locks).serveFetch p).1.pool.locks.holds t p = true
    rw [hlocks]
    exact hholds
  · obtain ⟨rfl, rfl⟩ := Prod.mk.inj (h.symm.trans he)
    exact ⟨looked_withLocks hb hkept, fun _ _ hn => by cases hn⟩
  · obtain ⟨rfl, rfl⟩ := Prod.mk.inj (h.symm.trans he)
    refine ⟨?_, fun _ _ hn => by cases hn⟩
    exact ⟨⟨rfl, fun _ => rfl⟩, (hb.withLocks _).aside rfl rfl rfl, hkept⟩

theorem got_turnAlone (hb : Backed e) {which : Turn} {progress : Progress}
    (h : e.turnAlone ticket ⟨t, p, mode, .fetch⟩ which = (e', progress)) :
    Looked t e e' ∧ ∀ f page, progress = .done (.ok (.fetched f page)) → Got t p page e e' := by
  rcases turnAlone_cases h with h | ⟨e1, h1, h⟩
  · exact got_turn hb h
  · obtain ⟨hlooked1, -⟩ := got_turn hb h1
    obtain ⟨hlooked, hgot⟩ := got_turn hlooked1.backed h
    refine ⟨hlooked1.trans hlooked, fun f page hpage => ?_⟩
    have hgot := hgot f page hpage
    exact ⟨hlooked1.trans hlooked, hgot.holds, (hlooked1.content p).symm.trans hgot.shown, hgot.id,
      hgot.sound⟩

theorem got_perform (hb : Backed e) {rest : Rest}
    (h : e.perform ticket t (.fetch p mode) = (e', rest)) :
    Looked t e e' ∧ ∀ f page, rest = .done (.ok (.fetched f page)) → Got t p page e e' := by
  have hlast := (@store_turnAlone_fetch e ticket t p mode .first).2
  cases hturn : e.turnAlone ticket ⟨t, p, mode, .fetch⟩ .first with
  | mk e1 progress =>
    have hgot := got_turnAlone hb hturn
    rw [hturn] at hlast
    change e.settle ticket ⟨t, p, mode, .fetch⟩ .first = _ at h
    rw [settle_of_turnAlone hturn] at h
    cases progress with
    | done result =>
      obtain ⟨rfl, rfl⟩ := Prod.mk.inj h
      exact ⟨hgot.1, fun f page hpage => hgot.2 f page (congrArg Progress.done (Rest.done.inj hpage))⟩
    | asleep =>
      obtain ⟨rfl, rfl⟩ := Prod.mk.inj h
      exact ⟨hgot.1, fun _ _ hn => by cases hn⟩
    | next r => exact absurd rfl (hlast r)

/-- The page as it is fetched for reading, if it is had at once. -/
def fetch? (e : Engine) (ticket : Ticket) (t : TxnId) (p : PageId) : Option (Engine × Page) :=
  match e.perform ticket t (.fetch p .shared) with
  | (e', .done (.ok (.fetched _ page))) => some (e', page)
  | _ => none

/-- The engine after pages were fetched one after another, if all are had at once. -/
def fetchEach? (e : Engine) (ticket : Ticket) (t : TxnId) : List PageId → Option Engine
  | [] => some e
  | p :: ps => (e.fetch? ticket t p).bind fun got => got.1.fetchEach? ticket t ps

theorem fetch?_eq_some {page : Page} (h : e.fetch? ticket t p = some (e', page)) :
    ∃ f, e.perform ticket t (.fetch p .shared) = (e', .done (.ok (.fetched f page))) := by
  unfold fetch? at h
  split at h
  · next f _ hperform =>
    cases h
    exact ⟨f, hperform⟩
  · cases h

/-! ## Taking items -/

theorem TakeRest.after_nil (rest : TakeRest) : rest.after [] = rest := by cases rest <;> rfl

theorem TakeRest.after_after (items items' : List ScanItem) (rest : TakeRest) :
    (rest.after items').after items = rest.after (items ++ items') := by
  cases rest <;> simp [TakeRest.after]

section
variable {c c' c1 : Cursor} {left left1 : Option Nat} {items : List ScanItem}

theorem take_of_fetch {page : Page} (h : c.take e.store.volume left = .load items left1 c1 p)
    (hf : e.fetch? ticket t p = some (e1, page)) :
    e.take ticket t c left = ((e1.take ticket t (c1.fill page.rows) left1).1,
      (e1.take ticket t (c1.fill page.rows) left1).2.after items) := by
  obtain ⟨f, hperform⟩ := fetch?_eq_some hf
  rw [take_of_load h, hperform]
  rfl

theorem take_of_error {x : Error} (h : c.take e.store.volume left = .load items left1 c1 p)
    (hx : e.perform ticket t (.fetch p .shared) = (e1, .done (.error x))) :
    e.take ticket t c left = (e1, .done (items ++ Cursor.failure left1 x) c1.stop) := by
  rw [take_of_load h, hx]

/-- What takes items without loading a page looks at nothing, and what loads pages looks at them. -/
theorem looked_take (hb : Backed e) (h : e.take ticket t c left = (e', .done items c')) :
    Looked t e e' ∧ c'.file = c.file := by
  induction hn : c.pagesLeft e.store.volume using Nat.strong_induction_on
    generalizing e c left items with
  | _ n ih =>
  have hfile := c.file_take e.store.volume left
  cases htaken : c.take e.store.volume left with
  | complete items1 c1 =>
    rw [take_of_complete htaken] at h
    cases h
    exact ⟨.refl hb t, by rwa [htaken] at hfile⟩
  | load items1 left1 c1 p =>
    rw [htaken] at hfile
    have hfewer := Cursor.pagesLeft_load_lt htaken
    rw [take_of_load htaken] at h
    cases hperform : e.perform ticket t (.fetch p .shared) with
    | mk e1 rest =>
      obtain ⟨hlooked, -⟩ := got_perform hb hperform
      rw [hperform] at h
      rcases rest with (x | outcome) | _
      · cases h
        exact ⟨hlooked, hfile⟩
      · cases houtcome : outcome.fetched? with
        | none =>
          simp only [houtcome] at h
          cases h
          exact ⟨hlooked, hfile⟩
        | some page =>
          simp only [houtcome] at h
          have hleft : (c1.fill page.rows).pagesLeft e1.store.volume < n := by
            rw [hlooked.store, ← hn]
            exact hfewer page.rows
          rcases hrest : e1.take ticket t (c1.fill page.rows) left1 with ⟨e2, more | more⟩
          · rw [hrest] at h
            cases h
            obtain ⟨hlooked2, hfile2⟩ := ih _ hleft hlooked.backed hrest rfl
            exact ⟨hlooked.trans hlooked2, hfile2.trans hfile⟩
          · rw [hrest] at h
            cases h
      · cases h

/-- A cursor that takes all gets the rows at hand, and then those that are seen on the pages. -/
theorem take_pages (hb : Backed e) {n m : Nat} (hcount : c.file.pageCount e.store.volume = .ok n)
    (hopen : c.ended = false) (hm : c.nextPage + m ≤ n)
    (hf : e.fetchEach? ticket t (c.file.pageIds c.nextPage m) = some e1) :
    (Looked t e e1 ∧ ∀ p ∈ c.file.pageIds c.nextPage m, e1.pool.locks.holds t p = true) ∧
    ∃ items rows, e.take ticket t c none =
        ((e1.take ticket t ⟨c.file, c.nextPage + m, rows, false⟩ none).1,
          (e1.take ticket t ⟨c.file, c.nextPage + m, rows, false⟩ none).2.after items) ∧
      (items ++ rows.map ScanItem.row).map ScanItem.plain =
        (c.rows.map Tuple.plain ++ (c.file.pageIds c.nextPage m).flatMap e.rowsAt).map .row := by
  induction m generalizing e c with
  | zero =>
    cases hf
    refine ⟨⟨.refl hb t, fun p hp => by cases hp⟩, [], c.rows, ?_, ?_⟩
    · rw [TakeRest.after_nil, Nat.add_zero, ← hopen]
    · simp [HeapFile.pageIds, ScanItem.plain]
  | succ m ih =>
    rw [HeapFile.pageIds_succ] at hf ⊢
    obtain ⟨⟨e2, page⟩, hfetch, hf⟩ := Option.bind_eq_some_iff.1 hf
    obtain ⟨f, hperform⟩ := fetch?_eq_some hfetch
    have hgot := (got_perform hb hperform).2 f page rfl
    have hload : c.take e.store.volume none =
        .load (c.rows.map .row) none { c with rows := [] } ⟨c.file.id, c.nextPage⟩ := by
      rw [Cursor.take_all hopen, hcount]
      exact if_neg (by omega)
    obtain ⟨⟨hlooked, hholds⟩, items, rows, htake, hitems⟩ :=
      ih (e := e2) (c := { c with rows := [] }.fill page.rows) hgot.backed (hgot.store ▸ hcount) hopen
        (by simp only [Cursor.fill]; omega) hf
    have hnext : c.nextPage + 1 + m = c.nextPage + (m + 1) := by omega
    simp only [Cursor.fill, hnext] at htake hitems
    refine ⟨⟨hgot.toLooked.trans hlooked, ?_⟩, c.rows.map .row ++ items, rows, ?_, ?_⟩
    · exact List.forall_mem_cons.2 ⟨hlooked.kept _ hgot.holds, hholds⟩
    · rw [take_of_fetch hload hfetch]
      simp only [Cursor.fill, htake, TakeRest.after_after]
    · have hrest : e2.rowsAt = e.rowsAt := funext hgot.toLooked.rowsAt
      rw [List.append_assoc, List.map_append, hitems, hrest, List.flatMap_cons, hgot.rows]
      simp [ScanItem.plain]

end

/-! ## Collecting -/

/-- What comes of a fresh cursor from which items were taken any number of times, and which was
set back any number of times. -/
inductive Taken (t : TxnId) (file : HeapFile) (e : Engine) : Engine → Cursor → Prop
  | fresh : Taken t file e e (.start file)
  | take {e1 e2 : Engine} {c c' : Cursor} {items : List ScanItem} (h : Taken t file e e1 c)
      (ticket : Ticket) (left : Option Nat) (htake : e1.take ticket t c left = (e2, .done items c')) :
      Taken t file e e2 c'
  | rewind {e1 : Engine} {c : Cursor} (h : Taken t file e e1 c) : Taken t file e e1 c.rewind

theorem looked_taken {file : HeapFile} {c : Cursor} (hb : Backed e) (h : Taken t file e e' c) :
    Looked t e e' ∧ c.file = file := by
  induction h with
  | fresh => exact ⟨.refl hb t, rfl⟩
  | take h ticket left htake ih =>
    obtain ⟨hlooked, hfile⟩ := looked_take ih.1.backed htake
    exact ⟨ih.1.trans hlooked, hfile.trans ih.2⟩
  | rewind h ih => exact ih

/-- The rows that are seen on pages, as items. -/
def shown (e : Engine) (ps : List PageId) : List ScanItem := (ps.flatMap e.rowsAt).map .row

/-- What collecting from a cursor that is set back comes to in `e'`, if the file has `n` pages and
`e` is what `t` began with. -/
structure Collects (t : TxnId) (file : HeapFile) (n : Nat) (e e' : Engine) (c : Cursor) : Prop where
  /-- if every page is had at once: the rows on all pages, which `t` holds then -/
  complete : ∀ (ticket : Ticket) (e1 : Engine), e'.fetchEach? ticket t (file.pageIds 0 n) = some e1 →
    ∃ items c', e'.take ticket t c.rewind none = (e1, .done items c') ∧
      items.map ScanItem.plain = e.shown (file.pageIds 0 n) ++ [.finished] ∧
      ∀ p ∈ file.pageIds 0 n, e1.pool.locks.holds t p = true
  /-- if one cannot be had: the rows on the pages before it, the error, and nothing after it -/
  failure : ∀ (ticket : Ticket) (i : Nat) (e1 e2 : Engine) (x : Error), i < n →
    e'.fetchEach? ticket t (file.pageIds 0 i) = some e1 →
    e1.perform ticket t (.fetch ⟨file.id, i⟩ .shared) = (e2, .done (.error x)) →
    ∃ items c', e'.take ticket t c.rewind none = (e2, .done items c') ∧
      items.map ScanItem.plain = e.shown (file.pageIds 0 i) ++ [.failed x, .finished] ∧
      ∀ (later : Engine) (ticket : Ticket) (left : Option Nat), left ≠ some 0 →
        later.take ticket t c' left = (later, .done [.finished] c')

/-- In every engine that orderly acts lead to, scans yield what was seen when they began. -/
def ScansCollect (start : Engine) : Prop :=
  ∀ {e e' : Engine} {t : TxnId} {file : HeapFile} {n : Nat} {c : Cursor}, Operated start e →
    file.pageCount e.store.volume = .ok n → Taken t file e e' c → Collects t file n e e' c

/-- A cursor at its end, with no rows at hand, yields nothing. -/
theorem take_spent {c : Cursor} (hended : c.ended = true) (hrows : c.rows = []) {left : Option Nat}
    (hleft : left ≠ some 0) : e.take ticket t c left = (e, .done [.finished] c) := by
  obtain ⟨file, next, rows, ended⟩ := c
  cases hended
  cases hrows
  refine take_of_complete ?_
  rcases left with _ | _ | n
  · rfl
  · exact absurd rfl hleft
  · rfl

/-- Whatever acts an engine has gone through since its cache was empty: a scan collects the rows
that were seen, page by page, when its cursor was made, whenever it is set back; and if a page
cannot be had, the rows before it and one error. -/
theorem scans_collect {store : Store} (hs : store.catalog.Sound) {capacity : Nat}
    {policy : DeadlockPolicy} {pool : Pool} (hp : Pool.new capacity policy = .ok pool) :
    ScansCollect ⟨store, pool⟩ := by
  intro e e' t file n c he hcount htaken
  obtain ⟨hlooked, rfl⟩ := looked_taken (backed_of_operated (backed_new hs hp) he) htaken
  have hcount' : c.file.pageCount e'.store.volume = .ok n := hlooked.store ▸ hcount
  have hrows : e'.rowsAt = e.rowsAt := funext hlooked.rowsAt
  refine ⟨fun ticket e1 hf => ?_, fun ticket i e1 e2 x hi hf hx => ?_⟩
  · obtain ⟨⟨hlooked1, hholds⟩, items, rows, htake, hitems⟩ :=
      take_pages (c := c.rewind) hlooked.backed hcount' rfl (Nat.le_of_eq (Nat.zero_add n)) hf
    -- the cursor finds that there are no more pages
    have hend : Cursor.take ⟨c.file, 0 + n, rows, false⟩ e1.store.volume none =
        .complete (rows.map .row ++ [.finished]) ⟨c.file, 0 + n, [], true⟩ := by
      rw [Cursor.take_all rfl, hlooked1.store, hcount']
      exact if_pos (Nat.le_of_eq (Nat.zero_add n).symm)
    refine ⟨items ++ (rows.map .row ++ [.finished]), ⟨c.file, 0 + n, [], true⟩, ?_, ?_, hholds⟩
    · rw [htake]
      simp only [Cursor.rewind, Cursor.start, take_of_complete hend]
      rfl
    · rw [← List.append_assoc, List.map_append, hitems, hrows]
      rfl
  · obtain ⟨⟨hlooked1, -⟩, items, rows, htake, hitems⟩ :=
      take_pages (c := c.rewind) hlooked.backed hcount' rfl
        (show 0 + i ≤ n by omega) hf
    have hload : Cursor.take ⟨c.file, 0 + i, rows, false⟩ e1.store.volume none =
        .load (rows.map .row) none ⟨c.file, 0 + i, [], false⟩ ⟨c.file.id, 0 + i⟩ := by
      rw [Cursor.take_all rfl, hlooked1.store, hcount']
      exact if_neg (show ¬n ≤ 0 + i by omega)
    rw [← Nat.zero_add i] at hx
    refine ⟨items ++ (rows.map .row ++ [.failed x, .finished]), ⟨c.file, 0 + i, [], true⟩, ?_, ?_,
      fun later ticket left hleft => take_spent rfl rfl hleft⟩
    · rw [htake]
      simp only [Cursor.rewind, Cursor.start, take_of_error hload hx]
      rfl
    · rw [← List.append_assoc, List.map_append, hitems, hrows]
      rfl

/-- Two rows are appended, the first is deleted again, and that is stored. A third row, of the
same transaction, is not yet. -/
def filledEngine : Engine :=
  let append := fun n index => Act.turn 1 (slimRequest (slimFile 1 .extendEmpty) 1 n index none) .first
  let first := (act ⟨slimStore .extendEmpty, World.samplePool⟩ (append 5 0)).act (append 6 1)
  let page : PageId := ⟨.numbered 1, 0⟩
  ((first.act (.turn 1 ⟨1, page, .exclusive, .remove ⟨page, 0⟩⟩ .first)).act (.keep 1)).act (append 7 2)

theorem operated_filledEngine :
    Operated ⟨slimStore .extendEmpty, World.samplePool⟩ filledEngine := by
  unfold filledEngine
  refine ((((Operated.start.act _ ?_).act _ ?_).act _ ?_).act _ ?_).act _ ?_
  · exact ⟨⟨by decide +kernel, sound_sampleRow 5, rfl, rfl⟩, rfl, rfl⟩
  · exact ⟨⟨by decide +kernel, sound_sampleRow 6, rfl, rfl⟩, rfl, rfl⟩
  · exact ⟨rfl, rfl⟩
  · trivial
  · exact ⟨⟨by decide +kernel, sound_sampleRow 7, rfl, rfl⟩, rfl, rfl⟩

/-- The row that a slim page shows, as an item. -/
def slimItem (n : Int32) (index : Nat) : ScanItem :=
  .row { World.sampleRow n with record := some ⟨⟨.numbered 1, index⟩, 0⟩ }

deriving instance DecidableEq for TakeRest

/-- One row was taken when the scan is set back. It then yields both rows that are there. -/
theorem scans_collect_filledEngine :
    let e := filledEngine
    let file := slimFile 1 .extendEmpty
    let e' := (e.take 2 1 (.start file) (some 1)).1
    (slimStore .extendEmpty).catalog.Sound ∧ Pool.new 2 .cycleDetection = .ok World.samplePool ∧
      Operated ⟨slimStore .extendEmpty, World.samplePool⟩ e ∧
      file.pageCount e.store.volume = .ok 3 ∧
      (∃ c, (e.take 2 1 (.start file) (some 1)).2 = .done [slimItem 6 1] c ∧ Taken 1 file e e' c) ∧
      ∃ e1 items c', e'.take 3 1 (.start file) none = (e1, .done items c') ∧
        items.map ScanItem.plain = [slimItem 6 1, slimItem 7 2, .finished] := by
  intro e file e'
  have hnew : Pool.new 2 .cycleDetection = .ok World.samplePool := rfl
  have hcount : file.pageCount e.store.volume = .ok 3 := by decide +kernel
  have htake : (e.take 2 1 (.start file) (some 1)).2 = .done [slimItem 6 1] ⟨file, 2, [], false⟩ := by
    decide +kernel
  have htaken : Taken 1 file e e' ⟨file, 2, [], false⟩ :=
    Taken.fresh.take 2 (some 1) (Prod.ext rfl htake)
  have hfetched : (e'.fetchEach? 3 1 (file.pageIds 0 3)).isSome = true := by decide +kernel
  obtain ⟨e1, hfetched⟩ := Option.isSome_iff_exists.1 hfetched
  obtain ⟨items, c', hcollect, hitems, -⟩ := (scans_collect (sound_slimStore _) hnew
    operated_filledEngine hcount htaken).complete 3 e1 hfetched
  have hshown : e.shown (file.pageIds 0 3) = [slimItem 6 1, slimItem 7 2] := by decide +kernel
  exact ⟨sound_slimStore _, hnew, operated_filledEngine, hcount, ⟨_, htake, htaken⟩, e1, items, c',
    hcollect, hitems.trans (by rw [hshown]; rfl)⟩

/-- Where tables share a file, the page of one of them that went out of date leaves the cache
during the first scan, and the second finds what the other table has stored. -/
theorem exists_scan_changed :
    ∃ start : Engine, Pool.new 2 .cycleDetection = .ok start.pool ∧ ¬ScansCollect start := by
  refine ⟨⟨sharedStore, World.samplePool⟩, rfl, fun h => ?_⟩
  let file := slimFile 1 .extendEmpty
  let e' := (sharedEngine.take 3 1 (.start file) none).1
  let items : List ScanItem := [slimItem 5 0, slimItem 5 1, slimItem 5 2, .finished]
  have hcount : file.pageCount sharedEngine.store.volume = .ok 3 := by decide +kernel
  have htake : (sharedEngine.take 3 1 (.start file) none).2 = .done items ⟨file, 3, [], true⟩ := by
    decide +kernel
  have htaken : Taken 1 file sharedEngine e' ⟨file, 3, [], true⟩ :=
    Taken.fresh.take 3 none (Prod.ext rfl htake)
  have hfetched : (e'.fetchEach? 4 1 (file.pageIds 0 3)).isSome = true := by decide +kernel
  obtain ⟨e1, hfetched⟩ := Option.isSome_iff_exists.1 hfetched
  obtain ⟨again, c', hcollect, hagain, -⟩ :=
    (h operated_sharedEngine hcount htaken).complete 4 e1 hfetched
  have hchanged : (e'.take 4 1 (.start file) none).2 =
      .done [slimItem 7 0, slimItem 5 1, slimItem 5 2, .finished] ⟨file, 3, [], true⟩ := by
    decide +kernel
  have hshown : sharedEngine.shown (file.pageIds 0 3) = [slimItem 5 0, slimItem 5 1, slimItem 5 2] := by
    decide +kernel
  rw [hshown] at hagain
  obtain ⟨rfl, -⟩ := TakeRest.done.inj (hchanged.symm.trans (congrArg Prod.snd hcollect))
  revert hagain
  decide

end Engine
end PageStore
