import PageStore.Proofs.Pool.FailedInsert
import PageStore.Proofs.Pool.Twins

/-!
# The cache is transparent

A desk is an engine with the scans that are open on it. Steps come in any order, from any
number of transactions: turns of requests, which others may come between, or whole operations that
nobody disturbs; items taken by a scan, page by page or as many as are wanted; completions,
flushes and discards.

The same steps at two desks, over the same storage and with caches of any capacities,
bring the same replies, and after every step storage, locks, dirty pages and scans are the
same at both. This holds as long as neither finds its cache full of dirty pages, reads do
not fail, and no two tables share a file. With a shared file, a clean page in the cache may
be out of date, so that it matters whether it was evicted.

Results:
* `Desk.Twins.step`, `Desk.Twins.trace`: one step, and all of them.
* `cache_is_transparent`: the same, from new pools.
* `exists_cache_shows`: tables that share a file.
-/
namespace PageStore

/-- An engine, and the scans that are open on it, by number. -/
structure Desk where
  engine : Engine
  cursors : Std.TreeMap Nat Cursor

namespace Desk

/-- Something to be done at a desk. -/
inductive Step
  /-- an operation makes its first request, or is over at once -/
  | begin (t : TxnId) (op : Operation)
  | turn (ticket : Ticket) (r : LockRequest Purpose) (which : Turn)
  /-- an operation goes as far as it gets -/
  | perform (ticket : Ticket) (t : TxnId) (op : Operation)
  /-- a request goes as far as it gets, with what follows it -/
  | settle (ticket : Ticket) (r : LockRequest Purpose) (which : Turn)
  /-- a scan is opened -/
  | scan (n : Nat) (file : HeapFile)
  | rewind (n : Nat)
  /-- items are taken until a page is needed -/
  | look (n : Nat) (left : Option Nat)
  /-- one turn of the request for the page that a scan needs -/
  | advance (n : Nat) (ticket : Ticket) (t : TxnId) (which : Turn)
  /-- items are taken, and pages loaded as they are needed -/
  | take (n : Nat) (ticket : Ticket) (t : TxnId) (left : Option Nat)
  | keep (t : TxnId)
  | commit (t : TxnId)
  | abort (t : TxnId)
  | flushPage (p : PageId)
  | flushTxn (t : TxnId)
  | flushAll
  | discard (p : PageId)

/-- What comes of a step. -/
inductive Reply
  | moved (progress : Engine.Progress)
  | rested (rest : Engine.Rest)
  | looked (taking : Cursor.Taking)
  | taken (rest : Engine.TakeRest)
  | ended (result : Except Error Unit) (woken : List (Ticket × LockRequest Purpose))
  | flushed (result : Except Error Unit)
  /-- there is nothing to tell -/
  | noted

/-- The reply as it is seen. -/
def Reply.plain : Reply → Reply
  | .moved progress => .moved progress.plain
  | .rested rest => .rested rest.plain
  | .looked taking => .looked taking.plain
  | .taken rest => .taken rest.plain
  | .ended result woken => .ended result woken
  | .flushed result => .flushed result
  | .noted => .noted

/-- Nothing could be evicted. -/
def Reply.lacksRoom : Reply → Bool
  | .moved progress => progress.lacksRoom
  | .rested rest => rest.lacksRoom
  | .taken rest => rest.lacksRoom
  | _ => false

/-- Rows are to go to registered tables and follow their layouts. -/
def Step.Proper (s : Store) : Step → Prop
  | .turn _ r _ | .settle _ r _ => r.Proper s
  | .perform _ _ op => op.isProper = true
  | _ => True

/-- The cursor after a turn of the request for its page. -/
def advanced (c : Cursor) : Engine.Progress → Cursor
  | .done (.ok outcome) => outcome.fetched?.elim c fun page => c.fill page.rows
  | .done (.error _) => c.stop
  | .next _ | .asleep => c

def withEngine (d : Desk) (e : Engine) : Desk := { d with engine := e }

def withCursor (d : Desk) (n : Nat) (c : Cursor) : Desk :=
  { d with cursors := d.cursors.insert n c }

/-- Does something with an open scan. -/
def onCursor (d : Desk) (n : Nat) (act : Cursor → Desk × Reply) : Desk × Reply :=
  match d.cursors[n]? with
  | some c => act c
  | none => (d, .noted)

def ended (d : Desk) (c : Engine.Completion) : Desk × Reply :=
  (d.withEngine c.engine, .ended c.result c.woken)

def flushed (d : Desk) (r : Engine × Except Error Unit) : Desk × Reply :=
  (d.withEngine r.1, .flushed r.2)

def step (d : Desk) : Step → Desk × Reply
  | .begin t op => (d, .moved (Engine.progressOf t (d.engine.begin op)))
  | .turn ticket r which =>
    let (e, progress) := d.engine.turn ticket r which
    (d.withEngine e, .moved progress)
  | .perform ticket t op =>
    let (e, rest) := d.engine.perform ticket t op
    (d.withEngine e, .rested rest)
  | .settle ticket r which =>
    let (e, rest) := d.engine.settle ticket r which
    (d.withEngine e, .rested rest)
  | .scan n file => (d.withCursor n (.start file), .noted)
  | .rewind n => d.onCursor n fun c => (d.withCursor n c.rewind, .noted)
  | .look n left => d.onCursor n fun c =>
    let taking := c.take d.engine.store.volume left
    (d.withCursor n taking.cursor, .looked taking)
  | .advance n ticket t which => d.onCursor n fun c =>
    let (e, progress) := d.engine.turn ticket ⟨t, ⟨c.file.id, c.nextPage⟩, .shared, .fetch⟩ which
    ((d.withEngine e).withCursor n (advanced c progress), .moved progress)
  | .take n ticket t left => d.onCursor n fun c =>
    let (e, rest) := d.engine.take ticket t c left
    ((d.withEngine e).withCursor n rest.cursor, .taken rest)
  | .keep t => d.ended (d.engine.keepChanges t)
  | .commit t => d.ended (d.engine.commit t)
  | .abort t => d.ended (d.engine.abort t)
  | .flushPage p => d.flushed (d.engine.flushPage p)
  | .flushTxn t => d.flushed (d.engine.flushTxn t)
  | .flushAll => d.flushed d.engine.flushAll
  | .discard p => d.flushed (d.engine.discard p)

/-- What comes of steps one after another, and the desk after each of them. -/
def trace (d : Desk) : List Step → List (Reply × Desk)
  | [] => []
  | s :: ss => ((d.step s).2, (d.step s).1) :: (d.step s).1.trace ss

def fresh (store : Store) (pool : Pool) : Desk := ⟨⟨store, pool⟩, ∅⟩

/-! ## Two desks -/

/-- Same storage, locks, dirty pages and scans. -/
structure Alike (d d' : Desk) : Prop where
  engine : Engine.Alike d.engine d'.engine
  cursor : ∀ n : Nat, (d'.cursors[n]?).map Cursor.plain = (d.cursors[n]?).map Cursor.plain

/-- Both replied the same, and are alike. -/
def Agree (x x' : Reply × Desk) : Prop := x'.1.plain = x.1.plain ∧ x.2.Alike x'.2

structure Twins (s : Store) (d d' : Desk) : Prop where
  engine : Engine.Twins s d.engine d'.engine
  cursor : ∀ n : Nat, (d'.cursors[n]?).map Cursor.plain = (d.cursors[n]?).map Cursor.plain

variable {s : Store} {d d' : Desk}

theorem Twins.alike (h : Twins s d d') : Alike d d' := ⟨h.engine.toAlike, h.cursor⟩

theorem Twins.withEngine (h : Twins s d d') {e e' : Engine} (he : Engine.Twins s e e') :
    Twins s (d.withEngine e) (d'.withEngine e') :=
  ⟨he, h.cursor⟩

theorem Twins.withCursor (h : Twins s d d') (n : Nat) {c c' : Cursor} (hc : c'.plain = c.plain) :
    Twins s (d.withCursor n c) (d'.withCursor n c') := by
  refine ⟨h.engine, fun m => ?_⟩
  simp only [Desk.withCursor, Std.TreeMap.getElem?_insert]
  split
  · exact congrArg some hc
  · exact h.cursor m

/-- What two desks make of one step. -/
def Both (s : Store) (x x' : Desk × Reply) : Prop := x'.2.plain = x.2.plain ∧ Twins s x.1 x'.1

theorem Twins.ended (h : Twins s d d') {c c' : Engine.Completion} (hc : Engine.TwinEnds s c c') :
    Both s (d.ended c) (d'.ended c') := by
  refine ⟨?_, h.withEngine hc.twins⟩
  unfold Desk.ended
  rw [hc.result, hc.woken]

theorem Twins.flushed (h : Twins s d d') {r r' : Engine × Except Error Unit}
    (hr : r'.2 = r.2 ∧ Engine.Twins s r.1 r'.1) : Both s (d.flushed r) (d'.flushed r') := by
  refine ⟨?_, h.withEngine hr.2⟩
  unfold Desk.flushed
  rw [hr.1]

/-- The scan is open at both, or at neither. -/
theorem Twins.onCursor (h : Twins s d d') {n : Nat} {act act' : Cursor → Desk × Reply}
    (hroom : (d.onCursor n act).2.lacksRoom = false)
    (hroom' : (d'.onCursor n act').2.lacksRoom = false)
    (hact : ∀ c c' : Cursor, c'.plain = c.plain → (act c).2.lacksRoom = false →
      (act' c').2.lacksRoom = false → Both s (act c) (act' c')) :
    Both s (d.onCursor n act) (d'.onCursor n act') := by
  have hcursor := h.cursor n
  unfold Desk.onCursor at *
  cases hc : d.cursors[n]? with
  | none =>
    rw [hc] at hcursor
    rw [Option.map_eq_none_iff.1 hcursor]
    exact ⟨rfl, h⟩
  | some c =>
    rw [hc] at hcursor hroom
    obtain ⟨c', hc', hplain⟩ := Option.map_eq_some_iff.1 hcursor
    rw [hc'] at hroom' ⊢
    exact hact c c' hplain hroom hroom'

theorem plain_advanced {c c' : Cursor} (hc : c'.plain = c.plain)
    {progress progress' : Engine.Progress} (hp : progress'.plain = progress.plain) :
    (advanced c' progress').plain = (advanced c progress).plain := by
  cases progress with
  | next r =>
    obtain rfl := Engine.Progress.eq_next hp
    exact hc
  | asleep =>
    obtain rfl := Engine.Progress.eq_asleep hp
    exact hc
  | done result =>
    obtain ⟨result', rfl, hresult⟩ := Engine.Progress.eq_done hp
    rcases except_map_eq_map hresult with ⟨x, rfl, rfl⟩ | ⟨outcome', outcome, rfl, rfl, houtcome⟩
    · exact congrArg Cursor.stop hc
    · simp only [advanced]
      rcases Outcome.fetched_of_plain houtcome with
        ⟨hpage, hpage'⟩ | ⟨page, page', hpage, hpage', hplain⟩
      · rw [hpage, hpage']
        exact hc
      · rw [hpage, hpage']
        exact Cursor.plain_fill hc hplain

theorem Twins.step (h : Twins s d d') {step : Step} (hproper : step.Proper s)
    (hroom : (d.step step).2.lacksRoom = false) (hroom' : (d'.step step).2.lacksRoom = false) :
    Both s (d.step step) (d'.step step) := by
  cases step with
  | begin t op =>
    have hbegin := Engine.begin_congr h.engine.store op
    refine ⟨?_, h⟩
    simp only [Desk.step, hbegin]
  | turn ticket r which =>
    obtain ⟨hplain, htwins⟩ := h.engine.turn hproper hroom hroom'
    exact ⟨congrArg Reply.moved hplain, h.withEngine htwins⟩
  | perform ticket t op =>
    obtain ⟨hplain, htwins⟩ := h.engine.perform hproper hroom hroom'
    exact ⟨congrArg Reply.rested hplain, h.withEngine htwins⟩
  | settle ticket r which =>
    obtain ⟨hplain, htwins⟩ := h.engine.settle hproper hroom hroom'
    exact ⟨congrArg Reply.rested hplain, h.withEngine htwins⟩
  | scan n file => exact ⟨rfl, h.withCursor n rfl⟩
  | rewind n =>
    refine h.onCursor hroom hroom' fun c c' hc _ _ => ⟨rfl, h.withCursor n ?_⟩
    have hfile : c'.file = c.file := (Cursor.mk.inj hc).1
    rw [Cursor.rewind, Cursor.rewind, hfile]
  | look n left =>
    refine h.onCursor hroom hroom' fun c c' hc _ _ => ?_
    have htaking : (c'.take d'.engine.store.volume left).plain =
        (c.take d.engine.store.volume left).plain := by
      rw [← Cursor.take_plain, ← Cursor.take_plain, hc, h.engine.store]
    refine ⟨congrArg Reply.looked htaking, h.withCursor n ?_⟩
    rw [← Cursor.Taking.cursor_plain, ← Cursor.Taking.cursor_plain, htaking]
  | advance n ticket t which =>
    refine h.onCursor hroom hroom' fun c c' hc hfirst hfirst' => ?_
    have hpage : (⟨c'.file.id, c'.nextPage⟩ : PageId) = ⟨c.file.id, c.nextPage⟩ :=
      congrArg (fun c => (⟨c.file.id, c.nextPage⟩ : PageId)) hc
    rw [hpage] at hfirst' ⊢
    have hproper : LockRequest.Proper ⟨t, ⟨c.file.id, c.nextPage⟩, .shared, .fetch⟩ s := trivial
    obtain ⟨hplain, htwins⟩ := h.engine.turn hproper hfirst hfirst'
    exact ⟨congrArg Reply.moved hplain,
      (h.withEngine htwins).withCursor n (plain_advanced hc hplain)⟩
  | take n ticket t left =>
    refine h.onCursor hroom hroom' fun c c' hc hfirst hfirst' => ?_
    obtain ⟨hplain, htwins⟩ := h.engine.take hc hfirst hfirst'
    refine ⟨congrArg Reply.taken hplain, (h.withEngine htwins).withCursor n ?_⟩
    rw [← Engine.TakeRest.cursor_plain, ← Engine.TakeRest.cursor_plain, hplain]
  | keep t => exact h.ended (h.engine.keepChanges t)
  | commit t => exact h.ended (h.engine.commit t)
  | abort t => exact h.ended (h.engine.dropChanges t)
  | flushPage p => exact h.flushed (h.engine.flushEach [p])
  | flushTxn t => exact h.flushed (h.engine.flushDirty (· == t))
  | flushAll => exact h.flushed (h.engine.flushDirty fun _ => true)
  | discard p => exact h.flushed (h.engine.discard p)

/-- The same steps, one after another. -/
theorem Twins.trace (steps : List Step) : ∀ {d d' : Desk}, Twins s d d' →
    (∀ step ∈ steps, step.Proper s) → (∀ x ∈ d.trace steps, x.1.lacksRoom = false) →
    (∀ x ∈ d'.trace steps, x.1.lacksRoom = false) →
    List.Forall₂ Agree (d.trace steps) (d'.trace steps) := by
  induction steps with
  | nil => exact fun _ _ _ _ => .nil
  | cons step steps ih =>
    intro d d' h hproper hroom hroom'
    obtain ⟨hfirst, hroom⟩ := List.forall_mem_cons.1 hroom
    obtain ⟨hfirst', hroom'⟩ := List.forall_mem_cons.1 hroom'
    obtain ⟨hstep, hproper⟩ := List.forall_mem_cons.1 hproper
    obtain ⟨hplain, htwins⟩ := h.step hstep hfirst hfirst'
    exact .cons ⟨hplain, htwins.alike⟩ (ih htwins hproper hroom hroom')

theorem twins_fresh {store : Store} (hs : store.catalog.Sound) (hread : store.Readable)
    {capacity capacity' : Nat} {policy : DeadlockPolicy} {pool pool' : Pool}
    (hp : Pool.new capacity policy = .ok pool) (hp' : Pool.new capacity' policy = .ok pool') :
    Twins store (fresh store pool) (fresh store pool') := by
  have hlocks : ∀ {n : Nat} {c : Pool}, Pool.new n policy = .ok c → c.locks = .new policy := by
    intro n c hc
    unfold Pool.new at hc
    split at hc
    · cases hc
    · cases hc
      rfl
  have hclean : ∀ {n : Nat} {c : Pool}, Pool.new n policy = .ok c → ∀ p, c.IsClean p := by
    intro n c hc p page hpage
    rw [Pool.page?_new hc] at hpage
    cases hpage
  refine ⟨⟨⟨rfl, (hlocks hp').trans (hlocks hp).symm, fun p => ?_⟩, Engine.backed_new hs hp,
    Engine.backed_new hs hp', rfl, hread⟩, fun n => rfl⟩
  exact (Engine.draft_of_clean (hclean hp' p)).trans (Engine.draft_of_clean (hclean hp p)).symm

/-- Whatever their capacities, new pools over the storage reply the same to the same steps, and
differ after each of them in nothing but statistics and cached clean pages, as long as neither
finds nothing to evict. -/
def Transparent (store : Store) : Prop :=
  ∀ {capacity capacity' : Nat} {policy : DeadlockPolicy} {pool pool' : Pool},
    Pool.new capacity policy = .ok pool → Pool.new capacity' policy = .ok pool' →
    ∀ steps : List Step, (∀ step ∈ steps, step.Proper store) →
      (∀ x ∈ (fresh store pool).trace steps, x.1.lacksRoom = false) →
      (∀ x ∈ (fresh store pool').trace steps, x.1.lacksRoom = false) →
      List.Forall₂ Agree ((fresh store pool).trace steps) ((fresh store pool').trace steps)

/-- The cache is transparent over any storage that can be read and in which no two tables
share a file. -/
theorem cache_is_transparent {store : Store} (hs : store.catalog.Sound) (hread : store.Readable) :
    Transparent store :=
  fun hp hp' steps => (twins_fresh hs hread hp hp').trace steps

/-! ## Runs -/

/-- A file of three pages with a row each. -/
def stackedStore : Store :=
  let page : List UInt8 := [0, 0, 0, 0, 1, 0, 0, 0, 5]
  { Engine.slimStore .extendEmpty with
    volume := (∅ : Volume).insert "rows" (SparseFile.empty.write 0 (page ++ page ++ page)) }

theorem readable_stackedStore : stackedStore.Readable := by
  intro table m hm
  change (Std.TreeMap.insert ∅ (TableId.numbered 1)
    (⟨Engine.slimFile 1 .extendEmpty, .none⟩ : Mount))[table]? = some m at hm
  rw [Std.TreeMap.getElem?_insert] at hm
  split at hm
  · cases hm
    rfl
  · simp at hm

/-- A scan; a delete that is taken back; a delete that waits for a reader, goes on when the reader
ends, and is kept; an insert that takes its place; another scan, after a page was dropped. -/
def stackedSteps : List Step :=
  let page (i : Nat) : PageId := ⟨.numbered 1, i⟩
  [.scan 0 (Engine.slimFile 1 .extendEmpty), .take 0 0 1 none, .commit 1,
    .perform 1 2 (.delete (some ⟨page 0, 0⟩)), .abort 2,
    .perform 2 3 (.fetch (page 1) .shared), .perform 3 4 (.delete (some ⟨page 1, 0⟩)),
    .flushAll, .commit 3, .settle 3 ⟨4, page 1, .exclusive, .remove ⟨page 1, 0⟩⟩ .woken, .commit 4,
    .perform 4 5 (.insert (.numbered 1) (World.sampleRow 7)), .flushPage (page 1), .commit 5,
    .discard (page 2), .rewind 0, .take 0 5 6 (some 2), .look 0 (some 1), .advance 0 6 6 .first]

theorem proper_stackedSteps : ∀ step ∈ stackedSteps, step.Proper stackedStore := by
  simp only [stackedSteps, List.forall_mem_cons, List.not_mem_nil, false_imp_iff, implies_true,
    and_true]
  repeat' constructor

/-- A cache of one page evicts nine pages on the way, a cache of three pages none. -/
theorem cache_is_transparent_stackedStore :
    let few := (fresh stackedStore Engine.slimPool).trace stackedSteps
    let many := (fresh stackedStore { Engine.slimPool with capacity := 3 }).trace stackedSteps
    stackedStore.catalog.Sound ∧ stackedStore.Readable ∧
      ((∀ x ∈ few, x.1.lacksRoom = false) ∧ ∀ x ∈ many, x.1.lacksRoom = false) ∧
      (few.getLast?.map fun x => x.2.engine.pool.counters.evictions) = some 9 ∧
      (many.getLast?.map fun x => x.2.engine.pool.counters.evictions) = some 0 ∧
      List.Forall₂ Agree few many := by
  intro few many
  have hsound : stackedStore.catalog.Sound := Engine.sound_slimStore .extendEmpty
  have hfew : ∀ x ∈ few, x.1.lacksRoom = false := by decide +kernel
  have hmany : ∀ x ∈ many, x.1.lacksRoom = false := by decide +kernel
  refine ⟨hsound, readable_stackedStore, ⟨hfew, hmany⟩, by decide +kernel, by decide +kernel, ?_⟩
  exact cache_is_transparent hsound readable_stackedStore
    (show Pool.new 1 .cycleDetection = .ok Engine.slimPool from rfl)
    (show Pool.new 3 .cycleDetection = .ok { Engine.slimPool with capacity := 3 } from rfl)
    stackedSteps proper_stackedSteps hfew hmany

/-- The grid of the page that an operation fetched. -/
def Reply.grid? : Reply → Option Grid
  | .rested (.done (.ok outcome)) => outcome.fetched?.map Page.grid
  | _ => none

theorem Reply.grid?_plain (r : Reply) : r.plain.grid? = r.grid? := by
  unfold Reply.plain
  split
  · rfl
  · next rest =>
    cases rest with
    | asleep => rfl
    | done result =>
      cases result with
      | error x => rfl
      | ok outcome =>
        change outcome.plain.fetched?.map Page.grid = outcome.fetched?.map Page.grid
        rw [Outcome.fetched?_plain]
        cases outcome.fetched? <;> simp
  all_goals rfl

theorem grids_of_agree {xs xs' : List (Reply × Desk)} (h : List.Forall₂ Agree xs xs') :
    xs'.map (·.1.grid?) = xs.map (·.1.grid?) := by
  induction h with
  | nil => rfl
  | @cons x x' _ _ hx _ ih =>
    have hgrid : x'.1.grid? = x.1.grid? := by
      rw [← Reply.grid?_plain, hx.1, Reply.grid?_plain]
    rw [List.map_cons, List.map_cons, hgrid, ih]

/-- A page of one table is read, its row is deleted through the other table, and it is read
again. -/
def twinSteps : List Step :=
  [.perform 0 1 (.fetch ⟨.numbered 1, 0⟩ .shared),
    .perform 1 2 (.delete (some ⟨⟨.numbered 2, 0⟩, 0⟩)), .commit 2,
    .perform 2 3 (.fetch ⟨.numbered 1, 0⟩ .shared)]

theorem proper_twinSteps : ∀ step ∈ twinSteps, step.Proper Engine.twinStore := by
  simp only [twinSteps, List.forall_mem_cons, List.not_mem_nil, false_imp_iff, implies_true,
    and_true]
  repeat' constructor

/-- If two tables share a file, a cache of two pages still shows the row that was deleted, while a
cache of one page has evicted it, and finds the page empty. -/
theorem exists_cache_shows :
    (∀ (table : TableId) (m : Mount), Engine.twinStore.catalog[table]? = some m →
      m.file.id = table ∧ m.faults = .none ∧
        HeapFile.make m.file.id m.file.name m.file.layout m.file.pageSize m.file.append =
          .ok m.file) ∧
    ¬Transparent Engine.twinStore := by
  refine ⟨fun table m hm => ?_, fun h => ?_⟩
  · rcases Engine.mount_twinStore hm with ⟨rfl, rfl⟩ | ⟨rfl, rfl⟩ <;> exact ⟨rfl, rfl, rfl⟩
  · have hagree := h (show Pool.new 1 .cycleDetection = .ok Engine.slimPool from rfl)
      (show Pool.new 2 .cycleDetection = .ok World.samplePool from rfl) twinSteps proper_twinSteps
      (by decide +kernel) (by decide +kernel)
    exact absurd (grids_of_agree hagree) (by decide +kernel)

end Desk
end PageStore
