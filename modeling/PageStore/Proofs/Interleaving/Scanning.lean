import PageStore.Proofs.Interleaving.Appending
import PageStore.Proofs.Pool.FailedInsert
import PageStore.Proofs.Pool.Plain

/-!
# Scans are repeatable once they have seen a page

A scan fetches the pages of a table from the first to the last. It locks what it visits,
and asks for the page count before every page without any lock. That is enough: pages
that were visited stay as they are, and while the first of them is held nobody else
can add a page. So a second scan goes through the same pages and finds the same rows,
whatever others have tried in the meantime.

A scan of a table without pages visits nothing and locks nothing, so a second one may find
what others have appended. And a table that shares its file with another grows with it,
whoever holds pages of the first.

Results:
* `Scans.shows`: a scan yields the rows of all pages as they are seen at its end.
* `scans_are_repeatable`: two scans by one transaction yield the same rows.
* `exists_scans_differ`: not if the first finds no page, or if tables share a file.
-/
namespace PageStore

namespace Cursor

variable {c c' : Cursor} {v : Volume} {items : List ScanItem} {left : Option Nat} {p : PageId}

/-- A cursor that takes all has taken the rows at hand when it asks for the page count. -/
theorem take_all (hend : c.ended = false) : c.take v none =
    match c.file.pageCount v with
    | .error x => .complete (c.rows.map .row ++ failure none x) { c with rows := [] }.stop
    | .ok count =>
      if count ≤ c.nextPage then
        .complete (c.rows.map .row ++ [.finished]) { c with rows := [] }.stop
      else .load (c.rows.map .row) none { c with rows := [] } ⟨c.file.id, c.nextPage⟩ := by
  have hopen : ¬c.ended = true := by
    rw [hend]
    decide
  unfold take takeRows
  exact (if_neg (by decide)).trans ((if_neg hopen).trans rfl)

/-- Unless it meets an error, it comes to its end after the last page. -/
theorem take_complete (hend : c.ended = false) (h : c.take v none = .complete items c')
    (hok : ∀ x, .failed x ∉ items) :
    c.file.fileSize v / c.file.pageSize ≤ c.nextPage ∧ items = c.rows.map .row ++ [.finished] := by
  rw [take_all hend] at h
  split at h
  · next x _ =>
    cases h
    exact absurd (List.mem_append_right _ List.mem_cons_self) (hok x)
  · next count hcount =>
    rw [← (HeapFile.pageCount_eq_ok_iff.1 hcount).1]
    split at h
    · next hle =>
      cases h
      exact ⟨hle, rfl⟩
    · cases h

/-- Before that, it asks for the next page. -/
theorem take_load (hend : c.ended = false) (h : c.take v none = .load items left c' p) :
    items = c.rows.map .row ∧ c' = { c with rows := [] } ∧ p = ⟨c.file.id, c.nextPage⟩ := by
  rw [take_all hend] at h
  split at h
  · cases h
  · split at h
    · cases h
    · cases h
      exact ⟨rfl, rfl, rfl⟩

end Cursor

namespace Engine

/-- The rows that are seen on a page. -/
def rowsAt (e : Engine) (p : PageId) : List Tuple := ((e.content? p).map (·.rows p)).getD []

/-- The rows that are seen on the pages of a table from one page on. -/
def rowsFrom (e : Engine) (table : TableId) (first : Nat) : List Tuple :=
  (List.range' first (e.store.pages table - first)).flatMap fun i => e.rowsAt ⟨table, i⟩

theorem rowsFrom_of_lt {e : Engine} {table : TableId} {first : Nat}
    (h : first < e.store.pages table) :
    e.rowsFrom table first = e.rowsAt ⟨table, first⟩ ++ e.rowsFrom table (first + 1) := by
  have hrange : e.store.pages table - first = e.store.pages table - (first + 1) + 1 := by omega
  rw [rowsFrom, rowsFrom, hrange, List.range'_succ, List.flatMap_cons]

theorem rowsFrom_of_le {e : Engine} {table : TableId} {first : Nat}
    (h : e.store.pages table ≤ first) :
    e.rowsFrom table first = [] := by
  rw [rowsFrom, Nat.sub_eq_zero_of_le h]
  rfl

end Engine

namespace World

/-- A cursor of `t` takes all that is left. Whenever it asks for a page, and when it has got it,
allowed events happen, among them what `t` itself does to get the page. -/
inductive Scans (t : TxnId) (allowed : Event → Prop) : World → Cursor → List ScanItem → World → Prop
  | complete {w : World} {c c' : Cursor} {items : List ScanItem}
      (h : c.take w.engine.store.volume none = .complete items c') : Scans t allowed w c items w
  | load {w w1 w2 w3 w' : World} {c c' : Cursor} {items more : List ScanItem} {left : Option Nat}
      {p : PageId} {page : Page} (h : c.take w.engine.store.volume none = .load items left c' p)
      (hbefore : Reachable allowed w w1) (hf : w1.Fetches t p .shared page w2)
      (hafter : Reachable allowed w2 w3) (hrest : Scans t allowed w3 (c'.fill page.rows) more w') :
      Scans t allowed w c (items ++ more) w'

variable {w w' : World} {t : TxnId} {table : TableId} {p : PageId} {c : Cursor}
  {items : List ScanItem}

/-- What `t` holds shows the same rows at the end as at the start. -/
theorem Still.rowsAt (h : Still t table w w') (hp : p.table = table)
    (hh : w.engine.pool.locks.holds t p = true) {g : Grid} (hg : w.engine.content? p = some g) :
    w'.engine.rowsAt p = w.engine.rowsAt p := by
  rw [Engine.rowsAt, Engine.rowsAt, hg, ((h.steady p hp hh).2 g hg)]

/-- A table whose length is asked for is registered with its file. -/
theorem pages_of_file {s : Store} {file : HeapFile} (h : s.file? table = some file) :
    s.pages table = file.fileSize s.volume / file.pageSize := by
  obtain ⟨m, hm, rfl⟩ := Option.map_eq_some_iff.1 h
  exact Store.pages_of_mount hm

/-- A scan that meets no error ends after the last page, holds all pages that it has visited,
and yields their rows as they are seen at the end. -/
theorem Scans.shows {file : HeapFile} (h : Scans t (Event.Refrains t table) w c items w')
    (hw : w.Lined) (hr : w.Refrains t table) (hfile : w.engine.store.file? table = some file)
    (hc : c.file = file ∧ c.ended = false) (hok : ∀ x, .failed x ∉ items)
    (hpos : 0 < w.engine.store.pages table)
    (hfirst : c.nextPage = 0 ∨ w.engine.pool.locks.holds t ⟨table, 0⟩ = true) :
    let n := w'.engine.store.pages table
    (w'.Lined ∧ w'.Refrains t table ∧ Still t table w w') ∧
    (0 < n ∧ w'.engine.pool.locks.holds t ⟨table, 0⟩ = true) ∧
    (∀ i, c.nextPage ≤ i → i < n → w'.engine.pool.locks.holds t ⟨table, i⟩ = true ∧
      ∃ g, w'.engine.content? ⟨table, i⟩ = some g) ∧
    items.map ScanItem.plain =
      (c.rows.map Tuple.plain ++ w'.engine.rowsFrom table c.nextPage).map .row ++ [.finished] := by
  induction h with
  | @complete w c c' items htake =>
    obtain ⟨hle, rfl⟩ := Cursor.take_complete hc.2 htake hok
    rw [hc.1, ← pages_of_file hfile] at hle
    have hholds : w.engine.pool.locks.holds t ⟨table, 0⟩ = true := by
      refine hfirst.resolve_left fun h0 => ?_
      omega
    refine ⟨⟨hw, hr, .refl t table w⟩, ⟨hpos, hholds⟩, fun i hi hn => ?_, ?_⟩
    · omega
    · rw [Engine.rowsFrom_of_le hle]
      simp [ScanItem.plain]
  | @load w w1 w2 w3 w' c c' items more left p page htake hbefore hf hafter hrest ih =>
    obtain ⟨rfl, rfl, rfl⟩ := Cursor.take_load hc.2 htake
    have hid : c.file.id = table := by
      obtain ⟨m, hm, hmf⟩ := Option.map_eq_some_iff.1 hfile
      rw [hc.1, ← hmf]
      exact hw.tasked.coherent.engine.catalog.id _ _ hm
    rw [hid] at hf
    -- from asking for the page to having its rows at hand
    obtain ⟨hr1, hstill1⟩ := still_of_reachable hw hr hbefore
    have hw1 := lined_of_reachable hw hbefore
    obtain ⟨hholds, hcached, -⟩ := fetched_page hw1.tasked hf
    obtain ⟨which, hstep, -⟩ := hf
    have hw2 := lined_step hw1 hstep
    have hrefrains : (Event.turn t which).Refrains t table := trivial
    have hr2 := refrains_step hr1 hrefrains hstep
    have hstill2 := hstill1.trans (.step hw1 hr1 hrefrains hstep)
    obtain ⟨hr3, hstill3⟩ := still_of_reachable hw2 hr2 hafter
    have hw3 := lined_of_reachable hw2 hafter
    -- the page is within the table, and the first page is held by now
    have hc2 := hw2.tasked.coherent.engine
    obtain ⟨hpid, hsound, -⟩ := hc2.page _ page hcached
    obtain ⟨old, hold, -⟩ := hc2.stored _ page hcached
    have hlt2 : c.nextPage < w2.engine.store.pages table :=
      (Store.sound_page? hc2.catalog hold).2.2.2.2
    have hzero2 : w2.engine.pool.locks.holds t ⟨table, 0⟩ = true := by
      rcases hfirst with h0 | h0
      · rwa [h0] at hholds
      · exact (hstill2.steady _ rfl h0).1
    have hpages3 := hstill3.pages hzero2 (Nat.zero_lt_of_lt hlt2)
    have hzero3 := (hstill3.steady _ rfl hzero2).1
    obtain ⟨⟨hw', hr', hstill'⟩, hheld, hall, hitems⟩ := ih hw3 hr3
      ((hstill3.file.trans hstill2.file).trans hfile) hc
      (fun x hx => hok x (List.mem_append_right _ hx)) (by omega) (.inr hzero3)
    have hpages' := hstill'.pages hzero3 (by omega)
    have hlt : c.nextPage < w'.engine.store.pages table := by omega
    obtain ⟨hholds', hcontent'⟩ := (hstill3.trans hstill').steady _ rfl hholds
    have hgrid' := hcontent' page.grid (Engine.content_of_cached hcached)
    refine ⟨⟨hw', hr', hstill2.trans (hstill3.trans hstill')⟩, hheld, fun i hi hn => ?_, ?_⟩
    · rcases Nat.lt_or_eq_of_le hi with hi | rfl
      · exact hall i hi hn
      · exact ⟨hholds', page.grid, hgrid'⟩
    · have hrows : page.rows.map Tuple.plain = w'.engine.rowsAt ⟨table, c.nextPage⟩ := by
        rw [hsound.plain_rows, hpid, Engine.rowsAt, hgrid']
        rfl
      rw [List.map_append, hitems, Engine.rowsFrom_of_lt hlt, ← hrows]
      simp [Cursor.fill, ScanItem.plain]

/-- A transaction scans a table twice, without errors, and in between neither ends nor changes
the table. -/
structure ScansTwice (t : TxnId) (table : TableId) (file : HeapFile) (w : World)
    (items items' : List ScanItem) : Prop where
  registered : w.engine.store.file? table = some file
  refrains : w.Refrains t table
  scans : ∃ w1 v v1, Scans t (Event.Refrains t table) w (.start file) items w1 ∧
    Reachable (Event.Refrains t table) w1 v ∧
    Scans t (Event.Refrains t table) v (.start file) items' v1
  noError : ∀ x, .failed x ∉ items ∧ .failed x ∉ items'

/-- In every world that any events lead to from a new pool, two scans of a table by one
transaction yield the same rows with the same record ids, whatever others do between and during
the scans, if no two tables share a file and the table has a page when the first scan begins. -/
theorem scans_are_repeatable {store : Store} (hs : store.catalog.Sound) {capacity : Nat}
    {policy : DeadlockPolicy} {pool : Pool} (hp : Pool.new capacity policy = .ok pool)
    (hw : Reachable (fun _ => True) (fresh store pool) w) (hpos : 0 < w.engine.store.pages table)
    {file : HeapFile} {items' : List ScanItem} (h : ScansTwice t table file w items items') :
    items.map ScanItem.plain = items'.map ScanItem.plain := by
  have hlined := lined_of_reachable (lined_fresh hs hp) hw
  obtain ⟨w1, v, v1, hfirst, hbetween, hsecond⟩ := h.scans
  obtain ⟨⟨hw1, hr1, hstill1⟩, ⟨hpos1, hzero1⟩, hall1, hitems⟩ :=
    hfirst.shows hlined h.refrains h.registered ⟨rfl, rfl⟩ (fun x => (h.noError x).1) hpos (.inl rfl)
  obtain ⟨hrv, hstillv⟩ := still_of_reachable hw1 hr1 hbetween
  have hpagesv := hstillv.pages hzero1 hpos1
  obtain ⟨⟨-, -, hstill2⟩, -, -, hitems'⟩ := hsecond.shows (lined_of_reachable hw1 hbetween) hrv
    ((hstillv.file.trans hstill1.file).trans h.registered) ⟨rfl, rfl⟩ (fun x => (h.noError x).2)
    (hpagesv ▸ hpos1) (.inl rfl)
  have hstill := hstillv.trans hstill2
  have hpages := hstill.pages hzero1 hpos1
  -- page by page, the rows are those that were seen at the end of the first scan
  have hrows : v1.engine.rowsFrom table 0 = w1.engine.rowsFrom table 0 := by
    rw [Engine.rowsFrom, Engine.rowsFrom, hpages, List.flatMap_def, List.flatMap_def]
    refine congrArg List.flatten (List.map_congr_left fun i hi => ?_)
    obtain ⟨hh, g, hg⟩ := hall1 i (Nat.zero_le i) (by simpa using hi)
    exact hstill.rowsAt rfl hh hg
  rw [hitems, hitems']
  exact congrArg (fun rows => ([] ++ rows).map ScanItem.row ++ [.finished]) hrows.symm

/-! ## Scans that are run -/

/-- What happens while a scan gets a page: the events before its last turn, that turn, and the
events after it. -/
structure Visit where
  before : List Event
  which : Turn
  after : List Event

/-- Takes all that a cursor of `t` has left, with a visit for each page. -/
def scanned? (t : TxnId) (w : World) (c : Cursor) : List Visit → Option (List ScanItem × World)
  | [] =>
    match c.take w.engine.store.volume none with
    | .complete items _ => some (items, w)
    | .load .. => none
  | visit :: visits =>
    match c.take w.engine.store.volume none with
    | .complete .. => none
    | .load items _ c p =>
      (w.run visit.before).bind fun w1 =>
        (w1.fetched? t p .shared visit.which).bind fun page =>
          (w1.step (.turn t visit.which)).bind fun w2 =>
            (w2.run visit.after).bind fun w3 =>
              (scanned? t w3 (c.fill page.rows) visits).map fun (more, w') => (items ++ more, w')

theorem scans_of_scanned {allowed : Event → Prop} :
    ∀ (visits : List Visit) {w w' : World} {c : Cursor} {items : List ScanItem},
      (∀ visit ∈ visits, ∀ event ∈ visit.before ++ visit.after, allowed event) →
      scanned? t w c visits = some (items, w') → Scans t allowed w c items w'
  | [], w, w', c, items, _, h => by
    rw [scanned?] at h
    split at h
    · next htake =>
      cases h
      exact .complete htake
    · cases h
  | visit :: visits, w, w', c, items, hall, h => by
    rw [scanned?] at h
    split at h
    · cases h
    · next _ _ _ _ htake =>
      obtain ⟨w1, h1, h⟩ := Option.bind_eq_some_iff.1 h
      obtain ⟨page, hpage, h⟩ := Option.bind_eq_some_iff.1 h
      obtain ⟨w2, h2, h⟩ := Option.bind_eq_some_iff.1 h
      obtain ⟨w3, h3, h⟩ := Option.bind_eq_some_iff.1 h
      obtain ⟨⟨more, _⟩, hrest, h⟩ := Option.map_eq_some_iff.1 h
      cases h
      have hvisit := hall visit List.mem_cons_self
      refine .load htake
        (reachable_of_run _ .start (fun event he => hvisit event (List.mem_append_left _ he)) h1)
        ⟨visit.which, h2, hpage⟩
        (reachable_of_run _ .start (fun event he => hvisit event (List.mem_append_right _ he)) h3)
        ?_
      exact scans_of_scanned visits (fun v hv => hall v (List.mem_cons_of_mem _ hv)) hrest

/-- A visit in which nobody acts but the scan. -/
def quietVisit (t : TxnId) (ticket : Ticket) (p : PageId) : Visit :=
  ⟨[.start t ticket (.fetch p .shared)], .first, []⟩

/-- No error was met. -/
def spotless (items : List ScanItem) : Bool :=
  items.all fun
    | .failed _ => false
    | _ => true

theorem failed_notMem {items : List ScanItem} (h : spotless items = true) (x : Error) :
    .failed x ∉ items := fun hx => Bool.false_ne_true (List.all_eq_true.1 h _ hx)

/-- Scans a table twice, with other events in between. -/
def scannedTwice? (t : TxnId) (w : World) (file : HeapFile) (visits : List Visit)
    (between : List Event) (visits' : List Visit) : Option (List ScanItem × List ScanItem) :=
  (scanned? t w (.start file) visits).bind fun (items, w1) =>
    (w1.run between).bind fun v =>
      (scanned? t v (.start file) visits').map fun (items', _) => (items, items')

theorem scansTwice_of_scannedTwice {file : HeapFile} {visits visits' : List Visit}
    {between : List Event} {w : World} {items items' : List ScanItem}
    (hfile : w.engine.store.file? table = some file) (hidle : (w.active[t]?).isNone = true)
    (hall : (∀ visit ∈ visits ++ visits', ∀ event ∈ visit.before ++ visit.after,
        event.Refrains t table) ∧
      ∀ event ∈ between, event.Refrains t table)
    (h : scannedTwice? t w file visits between visits' = some (items, items'))
    (hok : spotless items = true ∧ spotless items' = true) :
    ScansTwice t table file w items items' := by
  obtain ⟨⟨_, w1⟩, hscan, h⟩ := Option.bind_eq_some_iff.1 h
  obtain ⟨v, hbetween, h⟩ := Option.bind_eq_some_iff.1 h
  obtain ⟨⟨_, v1⟩, hscan', h⟩ := Option.map_eq_some_iff.1 h
  cases h
  have hrefrains : w.Refrains t table := by
    intro a ha
    rw [Option.isNone_iff_eq_none.1 hidle] at ha
    cases ha
  refine ⟨hfile, hrefrains, ⟨w1, v, v1, ?_, reachable_of_run _ .start hall.2 hbetween, ?_⟩,
    fun x => ⟨failed_notMem hok.1 x, failed_notMem hok.2 x⟩⟩
  · have hfirst := fun visit hv => hall.1 visit (List.mem_append_left visits' hv)
    exact scans_of_scanned visits hfirst hscan
  · have hsecond := fun visit hv => hall.1 visit (List.mem_append_right visits hv)
    exact scans_of_scanned visits' hsecond hscan'

/-- A table of two pages is scanned twice. In the meantime one transaction waits to insert and
another to delete, a page is dropped from the cache, and a second reader aborts. -/
theorem sample_scans_are_repeatable :
    ∃ w items items', Reachable (fun _ => True) (fresh sampleStore samplePool) w ∧
      0 < w.engine.store.pages (.numbered 1) ∧
      ScansTwice 2 (.numbered 1) sampleFile w items items' ∧
      items.length = 4 ∧ items.map ScanItem.plain = items'.map ScanItem.plain := by
  let setting : List Event := [.start 1 0 (.insert (.numbered 1) (sampleRow 5)), .turn 1 .first,
    .start 1 1 (.insert (.numbered 1) (sampleRow 6)), .turn 1 .first,
    .start 1 2 (.insert (.numbered 1) (sampleRow 7)), .turn 1 .first, .turn 1 .first, .keep 1]
  let visits : List Visit := [⟨[.start 2 3 (.fetch (samplePage 0) .shared)], .first,
    [.start 3 4 (.insert (.numbered 1) (sampleRow 8)), .turn 3 .first]⟩,
    quietVisit 2 5 (samplePage 1)]
  let between : List Event := [.start 4 6 (.delete (some ⟨samplePage 1, 0⟩)), .turn 4 .first,
    .discard (samplePage 0), .start 5 7 (.fetch (samplePage 1) .shared), .turn 5 .first, .drop 5]
  let visits' : List Visit := [quietVisit 2 8 (samplePage 0), quietVisit 2 9 (samplePage 1)]
  have hrun : ((fresh sampleStore samplePool).run setting).bind (fun w =>
      (scannedTwice? 2 w sampleFile visits between visits').map fun (items, items') => decide
        (((0 < w.engine.store.pages (.numbered 1) ∧
          w.engine.store.file? (.numbered 1) = some sampleFile) ∧
            (w.active[(2 : TxnId)]?).isNone = true) ∧
          (spotless items = true ∧ spotless items' = true) ∧ items.length = 4)) = some true := by
    decide +kernel
  obtain ⟨w, hw, h⟩ := Option.bind_eq_some_iff.1 hrun
  obtain ⟨⟨items, items'⟩, hscans, h⟩ := Option.map_eq_some_iff.1 h
  obtain ⟨⟨⟨hpos, hfile⟩, hidle⟩, hok, hlength⟩ := of_decide_eq_true h
  have hreach := reachable_of_run setting .start (fun _ _ => trivial) hw
  have htwice := scansTwice_of_scannedTwice hfile hidle (by decide) hscans hok
  exact ⟨w, items, items', hreach, hpos, htwice, hlength, scans_are_repeatable sound_sampleStore
    (show Pool.new 2 .cycleDetection = .ok samplePool from rfl) hreach hpos htwice⟩

/-- One transaction's scans of a table yield the same rows. -/
def RepeatsScans (start : World) : Prop :=
  ∀ {w : World} {t : TxnId} {table : TableId} {file : HeapFile} {items items' : List ScanItem},
    Reachable (fun _ => True) start w → ScansTwice t table file w items items' →
    items.map ScanItem.plain = items'.map ScanItem.plain

/-- It suffices that two scans yield lists of different lengths. -/
theorem not_repeatsScans {start : World} (t : TxnId) (table : TableId) (file : HeapFile)
    (visits visits' : List Visit) (between : List Event)
    (hfile : start.engine.store.file? table = some file) (hidle : (start.active[t]?).isNone = true)
    (hall : (∀ visit ∈ visits ++ visits', ∀ event ∈ visit.before ++ visit.after,
        event.Refrains t table) ∧
      ∀ event ∈ between, event.Refrains t table)
    (h : (scannedTwice? t start file visits between visits').map (fun (items, items') =>
      decide ((spotless items = true ∧ spotless items' = true) ∧
        items.length ≠ items'.length)) = some true) :
    ¬RepeatsScans start := by
  intro hrepeats
  obtain ⟨⟨items, items'⟩, hscans, h⟩ := Option.map_eq_some_iff.1 h
  obtain ⟨hok, hlength⟩ := of_decide_eq_true h
  have hsame := hrepeats .start (scansTwice_of_scannedTwice hfile hidle hall hscans hok)
  exact hlength (by simpa using congrArg List.length hsame)

/-- Two scans of a table differ if the first finds no page and another transaction appends one,
also if no two tables share a file. They differ as well if the table has a page and another
transaction appends one through a second table on the same file. -/
theorem exists_scans_differ :
    (sampleStore.catalog.Sound ∧ Pool.new 2 .cycleDetection = .ok samplePool ∧
      ¬RepeatsScans (fresh sampleStore samplePool)) ∧
    (∀ table file, Engine.twinStore.file? table = some file → 0 < Engine.twinStore.pages table) ∧
      ¬RepeatsScans (fresh Engine.twinStore samplePool) := by
  refine ⟨⟨sound_sampleStore, rfl, ?_⟩, fun _ _ => Engine.pages_twinStore, ?_⟩
  · exact not_repeatsScans 1 (.numbered 1) sampleFile [] [quietVisit 1 1 (samplePage 0)]
      [.start 2 0 (.insert (.numbered 1) (sampleRow 6)), .turn 2 .first, .keep 2]
      rfl rfl (by decide) (by decide +kernel)
  · exact not_repeatsScans 1 (.numbered 1) (Engine.slimFile 1 .extendEmpty)
      [quietVisit 1 1 (samplePage 0)]
      [quietVisit 1 2 (samplePage 0), quietVisit 1 3 (samplePage 1)]
      [.start 2 0 (.insert (.numbered 2) (sampleRow 6)), .turn 2 .first, .turn 2 .first, .keep 2]
      rfl rfl (by decide) (by decide +kernel)

end World
end PageStore
