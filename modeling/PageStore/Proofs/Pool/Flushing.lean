import PageStore.Proofs.Pool.Completion
import PageStore.Proofs.Pool.FailedInsert
import PageStore.Proofs.Serial.BrokenCommit

/-!
# What a flush has stored is a prefix of what it was to store

Three calls flush: one writes all dirty pages, one those of a transaction, and the end
of a transaction that keeps its changes writes those and then releases its locks. All
three list the dirty pages first, by ascending id, and write one after another until a
write fails. A page is clean as soon as it is written, and nothing else about it changes
in the cache. So at any time the pages written are the first ones of the list, and they
are exactly those of it that are clean.

A write may fail for any reason, and tables may begin or cease to fail between two writes.
A write that is refused stores nothing; one that has begun may break off and leave the first
bytes of the page in its place, or all of them, and the page stays dirty all the same.

What a write does to storage concerns one page of one table, unless tables share a file:
then it changes a page of the other table as well.

Limitations: a call waits for a frame while the holder of a handle has it latched. Here it
is one step, taken when it has all frames that it waits for.

Results:
* `Written.dirtyPages`: of the pages listed, those not written stay dirty.
* `Written.stored`: the pages written are stored as they are seen, all others as before.
* `flush_stores_prefix`: what each of the calls has done when it returns.
* `exists_flush_oversteps`: a flush that fails may spoil the page whose write failed, and a
  flush may change the pages of a table that shares the file.
-/
namespace PageStore.Engine

variable {e e' : Engine} {t : TxnId} {p : PageId} {ps : List PageId} {x : Error}

/-! ## The calls -/

/-- The calls that flush. -/
inductive FlushCall
  | all
  | pages (t : TxnId)
  | complete (t : TxnId)

namespace FlushCall

/-- Whose dirty pages are written. -/
def selects : FlushCall → TxnId → Bool
  | all => fun _ => true
  | pages t | complete t => (· == t)

/-- The dirty pages that are to be written, by ascending id. -/
def listed (c : FlushCall) (e : Engine) : List PageId := e.pool.dirtyPages c.selects

/-- What is done once all of them are written. -/
def finish : FlushCall → Engine → Engine
  | all, e | pages _, e => e
  | complete t, e => (e.releaseAll t).1

def run (e : Engine) : FlushCall → Engine × Except Error Unit
  | all => e.flushAll
  | pages t => e.flushTxn t
  | complete t => ((e.keepChanges t).engine, (e.keepChanges t).result)

/-- What the call may come to if tables begin or cease to fail meanwhile. -/
inductive Runs (c : FlushCall) (e : Engine) : Engine → Except Error Unit → Prop
  | done {e' : Engine} (h : Flushes e (c.listed e) e' (.ok ())) : Runs c e (c.finish e') (.ok ())
  | broken {e' : Engine} {x : Error} (h : Breaks e (c.listed e) e' x) : Runs c e e' (.error x)

theorem run_eq (c : FlushCall) (e : Engine) : c.run e =
    match e.flushEach (c.listed e) with
    | (e', .ok _) => (c.finish e', .ok ())
    | (e', .error x) => (e', .error x) := by
  cases c with
  | all =>
    simp only [run, flushAll, listed, selects]
    rcases e.flushEach (e.pool.dirtyPages fun _ => true) with ⟨e', x | u⟩ <;> rfl
  | pages t =>
    simp only [run, flushTxn, listed, selects]
    rcases e.flushEach (e.pool.dirtyPages (· == t)) with ⟨e', x | u⟩ <;> rfl
  | complete t =>
    simp only [run, keepChanges, flushTxn, listed, selects]
    rcases e.flushEach (e.pool.dirtyPages (· == t)) with ⟨e', x | u⟩ <;> rfl

/-- Nothing need change meanwhile. -/
theorem runs_run (c : FlushCall) (e : Engine) : c.Runs e (c.run e).1 (c.run e).2 := by
  have hflush := flushes_flushEach (c.listed e) e
  rw [run_eq]
  generalize e.flushEach (c.listed e) = flushed at hflush ⊢
  obtain ⟨e', x | u⟩ := flushed
  · exact .broken hflush.breaks
  · exact .done hflush

/-- All that is left to do once the pages are written concerns locks. -/
theorem finish_cases (c : FlushCall) (e : Engine) :
    c.finish e = { e with pool := { e.pool with locks := (c.finish e).pool.locks } } := by
  cases c <;> rfl

theorem locks_finish (c : FlushCall) (h : e'.pool.locks = e.pool.locks) :
    (c.finish e').pool.locks = (c.finish e).pool.locks := by
  cases c with
  | all | pages t => exact h
  | complete t => exact congrArg (fun locks => (locks.releaseAll t).1) h

end FlushCall

/-! ## What was written -/

theorem Written.withLocks (h : Written e ps e') (locks : LockTable Purpose) :
    Written e ps (e'.withLocks locks) :=
  ⟨h.writes, h.cached, h.counters, h.rest⟩

theorem Written.finish (h : Written e ps e') (c : FlushCall) : Written e ps (c.finish e') := by
  rw [c.finish_cases]
  exact h.withLocks _

/-- Of the dirty pages those that were not written stay dirty, for whom they were. -/
theorem Written.dirtyPages {of : TxnId → Bool} {rest : List PageId} (h : Written e ps e')
    (hsplit : e.pool.dirtyPages of = ps ++ rest) : e'.pool.dirtyPages of = rest := by
  have hs := e.pool.ascending_dirtyPages of
  have hn := e.pool.nodup_dirtyPages of
  rw [hsplit] at hs hn
  have hdisjoint := (List.nodup_append.1 hn).2.2
  refine Pool.dirtyPages_eq (List.pairwise_append.1 hs).2.1 fun p => ?_
  have hlisted : p ∈ e.pool.dirtyPages of ↔ p ∈ ps ∨ p ∈ rest := by rw [hsplit, List.mem_append]
  by_cases hp : p ∈ ps
  · have hrest : p ∉ rest := fun hmem => hdisjoint p hp p hmem rfl
    refine iff_of_false (fun hmem => ?_) hrest
    obtain ⟨page, t, hpage, hd, -⟩ := Pool.mem_dirtyPages.1 hmem
    rw [h.page?, Option.map_eq_some_iff] at hpage
    obtain ⟨old, -, rfl⟩ := hpage
    rw [if_pos hp] at hd
    cases hd
  · rw [Pool.mem_dirtyPages, h.page?_of_not_mem hp, ← Pool.mem_dirtyPages, hlisted]
    exact or_iff_right hp

/-- The pages written are stored as readers see them, all other pages as they were, and
readers see the same as before. -/
structure Stored (e : Engine) (ps : List PageId) (e' : Engine) : Prop where
  listed : ∀ p ∈ ps, e'.store.contents p = e.content? p ∧
    ∃ page, e.pool.page? p = some page ∧ e'.store.Holds p page
  other : ∀ p, p ∉ ps → e'.store.bytes? p = e.store.bytes? p ∧ e'.store.contents p = e.store.contents p
  content : ∀ p, e'.content? p = e.content? p

/-- What is seen does not change if storage does not, where pages are not cached. -/
theorem content_of_cleaned (hpage : ∀ p, e'.pool.page? p =
      (e.pool.page? p).map fun page => if p ∈ ps then page.withDirtier none else page)
    (hother : ∀ p, e.pool.page? p = none → e'.store.contents p = e.store.contents p) (p : PageId) :
    e'.content? p = e.content? p := by
  have hp := hpage p
  cases hcached : e.pool.page? p with
  | none =>
    rw [hcached] at hp
    rw [content?, content?, visible_of_not_cached hcached, visible_of_not_cached hp]
    exact hother p hcached
  | some page =>
    rw [hcached] at hp
    rw [content_of_cached hcached, content_of_cached hp]
    split <;> rfl

theorem Written.stored (h : Written e ps e') (he : e.Sound) (hc : e.store.catalog.Sound)
    (hn : ps.Nodup) (hp : ∀ p ∈ ps, ∃ page, e.pool.page? p = some page) : Stored e ps e' := by
  obtain ⟨-, -, hall, hother⟩ := he.written hc hn hp h.writes
  refine ⟨fun p hmem => ?_, hother, content_of_cleaned h.page? fun p hnone => (hother p ?_).2⟩
  · obtain ⟨page, hpage, hholds, hcontents⟩ := hall p hmem
    exact ⟨hcontents.trans (content_of_cached hpage).symm, page, hpage, hholds⟩
  · intro hmem
    obtain ⟨page, hcached⟩ := hp p hmem
    cases hnone.symm.trans hcached

/-! ## The calls return -/

/-- In every state that can be reached each of the calls returns, whichever writes fail, once it
need not wait for a latched frame. If it returns without an error, it has written all pages that
it lists; they are clean, and the same call once more writes nothing. If it returns an error, that
is the error of the first write that failed, by ascending page id: the pages before that one are
written and clean, it and the later ones are in the cache as they were, and so are all locks. The
pages written are counted, and nothing else in the pool changes, except that a transaction which
ends without an error lets go of its locks. If no two tables share a file, the pages written are
stored as they are seen, all other pages are stored as they were but for the one whose write
failed, which is so if that write was refused and else holds what had been written, and all pages
are seen as before. -/
theorem flush_stores_prefix {store : Store} {capacity : Nat} {policy : DeadlockPolicy} {pool : Pool}
    (hp : Pool.new capacity policy = .ok pool) (he : Reached ⟨store, pool⟩ e) (c : FlushCall) :
    c.Runs e (c.run e).1 (c.run e).2 ∧
    (c.listed e).Pairwise (fun p q => compare p q = .lt) ∧
    (∀ e', c.Runs e e' (.ok ()) →
      Written e (c.listed e) e' ∧ c.listed e' = [] ∧
      e'.pool.locks = (c.finish e).pool.locks ∧
      (e.store.catalog.Sound → Stored e (c.listed e) e') ∧
      ∀ e'' r, c.Runs e' e'' r → r = .ok () ∧ Written e' [] e'') ∧
    ∀ e' x, c.Runs e e' (.error x) →
      ∃ before q after page s, c.listed e = before ++ q :: after ∧ e.pool.page? q = some page ∧
        Written e before { e' with store := s } ∧ s.FailsToWrite page e'.store x ∧
        c.listed e' = q :: after ∧ (∀ p ∈ q :: after, e'.pool.page? p = e.pool.page? p) ∧
        e'.pool.locks = e.pool.locks ∧
        (e.store.catalog.Sound →
          StoredUpTo e before q page s e'.store ∧ ∀ p, e'.content? p = e.content? p) := by
  have hsound := sound_of_reached (sound_new store hp) he
  have hn : (c.listed e).Nodup := e.pool.nodup_dirtyPages _
  have hcached : ∀ p ∈ c.listed e, ∃ page, e.pool.page? p = some page :=
    fun _ => Pool.cached_of_dirty
  have hdirty : ∀ p ∈ c.listed e, ¬e.pool.IsClean p := fun _ => Pool.not_clean_of_dirty
  refine ⟨c.runs_run e, e.pool.ascending_dirtyPages _, fun e' h => ?_, fun e' x h => ?_⟩
  · cases h with
    | @done e1 h =>
      obtain ⟨hlocks, hends⟩ := h.written hn hdirty
      have hwritten := Written.finish hends c
      have hrest : c.listed (c.finish e1) = [] :=
        hwritten.dirtyPages (by rw [List.append_nil]; rfl)
      refine ⟨hwritten, hrest, c.locks_finish hlocks,
        fun hc => hwritten.stored hsound hc hn hcached, fun e'' r h' => ?_⟩
      cases h' with
      | done h' =>
        rw [hrest] at h'
        cases h'
        exact ⟨rfl, (written_nil (.refl _)).finish c⟩
      | broken h' =>
        rw [hrest] at h'
        cases h' with
        | intro hnil => exact absurd hnil (by simp)
  · cases h with
    | broken h =>
      obtain ⟨hlocks, before, q, after, page, s, hsplit, hq, hwritten, hfail⟩ := h.written hn hdirty
      rw [hsplit] at hn hcached
      obtain ⟨hbefore, -, hdisjoint⟩ := List.nodup_append.1 hn
      have hrest : ∀ p ∈ q :: after, e'.pool.page? p = e.pool.page? p := fun p hmem =>
        hwritten.page?_of_not_mem fun hmem' => hdisjoint p hmem' p hmem rfl
      refine ⟨before, q, after, page, s, hsplit, hq, hwritten, hfail, hwritten.dirtyPages hsplit,
        hrest, hlocks, fun hc => ?_⟩
      have hstored := hsound.broken hc hbefore
        (fun p hmem => hcached p (List.mem_append_left _ hmem))
        (fun hmem => hdisjoint q hmem q List.mem_cons_self rfl) hq hwritten.writes hfail
      refine ⟨hstored, content_of_cleaned hwritten.page? fun p hnone =>
        (hstored.other p (fun hmem => ?_) ?_).2⟩
      · obtain ⟨page, hpage⟩ := hcached p (List.mem_append_left _ hmem)
        cases hnone.symm.trans hpage
      · rintro rfl
        cases hnone.symm.trans hq

/-- Transaction 1 has put a row on a new page of each of two tables; then the second of them
cannot be written. -/
def halfwayEngine : Engine :=
  let more : HeapFile := { World.sampleFile with id := .numbered 2, name := "more" }
  let e := (act ⟨pairStore, World.samplePool⟩ (appendAct 1 0)).act
    (.turn 1 (slimRequest more 1 6 0 none) .first)
  e.act (.storage (e.store.withFaults (.numbered 2) ⟨true, []⟩))

theorem reached_halfwayEngine : Reached ⟨pairStore, World.samplePool⟩ halfwayEngine := by
  have hfirst : Reached ⟨pairStore, World.samplePool⟩
      (act ⟨pairStore, World.samplePool⟩ (appendAct 1 0)) :=
    Reached.start.act _ ⟨⟨rfl, rfl⟩, fun _ => ⟨rfl, by decide +kernel⟩⟩
  have hsecond := hfirst.act
    (.turn 1 (slimRequest { World.sampleFile with id := .numbered 2, name := "more" } 1 6 0 none) .first)
    ⟨⟨rfl, rfl⟩, fun _ => ⟨rfl, by decide +kernel⟩⟩
  exact hsecond.act (.storage (Store.withFaults _ (.numbered 2) ⟨true, []⟩))
    (Store.sameFiles_withFaults _ _ _).keeps

/-- The end of the transaction stores the page of the first table; that of the second stays
dirty. -/
theorem flush_stores_prefix_halfwayEngine :
    let e := halfwayEngine
    let e' := (e.keepChanges 1).engine
    Reached ⟨pairStore, World.samplePool⟩ e ∧ (e.keepChanges 1).result = .error (.io .unwritable) ∧
      (∃ s, Written e [⟨.numbered 1, 0⟩] { e' with store := s }) ∧
      e'.pool.dirtyPages (· == 1) = [⟨.numbered 2, 0⟩] ∧
      e'.pool.locks = e.pool.locks := by
  intro e e'
  have hresult : (e.keepChanges 1).result = .error (.io .unwritable) := by decide +kernel
  have hlisted : e.pool.dirtyPages (· == 1) = [⟨.numbered 1, 0⟩, ⟨.numbered 2, 0⟩] := by decide +kernel
  have hrest : e'.pool.dirtyPages (· == 1) = [⟨.numbered 2, 0⟩] := by decide +kernel
  obtain ⟨hruns, -, -, hbroken⟩ := flush_stores_prefix
    (show Pool.new 2 .cycleDetection = .ok World.samplePool from rfl) reached_halfwayEngine (.complete 1)
  have hruns : (FlushCall.complete 1).Runs e e' (e.keepChanges 1).result := hruns
  rw [hresult] at hruns
  obtain ⟨before, q, after, -, s, hsplit, -, hwritten, -, hleft, -, hlocks, -⟩ := hbroken _ _ hruns
  obtain ⟨rfl, rfl⟩ := List.cons.inj (hleft.symm.trans hrest)
  have hbefore : before ++ [⟨.numbered 2, 0⟩] = [⟨.numbered 1, 0⟩] ++ [⟨.numbered 2, 0⟩] :=
    hsplit.symm.trans hlisted
  obtain rfl := List.append_cancel_right hbefore
  exact ⟨reached_halfwayEngine, hresult, ⟨s, hwritten⟩, hrest, hlocks⟩

/-! ## What a flush may change beside the pages that it writes -/

/-- What a flush for a transaction does not list it leaves as it is in storage. -/
def FlushSpares (start : Engine) : Prop :=
  ∀ {e : Engine}, Reached start e → ∀ (t : TxnId) (p : PageId), p ∉ e.pool.dirtyPages (· == t) →
    (e.flushTxn t).1.store.contents p = e.store.contents p

/-- What is still dirty after a flush that fails has the stored bytes that it had. -/
def FlushHalts (start : Engine) : Prop :=
  ∀ {e e' : Engine} {c : FlushCall} {x : Error}, Reached start e → c.Runs e e' (.error x) →
    ∀ p ∈ c.listed e', e'.store.bytes? p = e.store.bytes? p

/-- A transaction has put a row on a new page. If the write of that page breaks off after its
checksum, the stored bytes are not those of before. -/
theorem exists_spoiled_page : ∃ e page s, Reached ⟨World.sampleStore, World.samplePool⟩ e ∧
    (FlushCall.pages 1).listed e = [World.samplePage 0] ∧
    e.pool.page? (World.samplePage 0) = some page ∧ page.dirtier ≠ none ∧
    e.store.catalog[page.id.table]? = some ⟨World.sampleFile, .none⟩ ∧
    e.store.writePage page = .ok s ∧
    (e.store.putPart ⟨World.sampleFile, .none⟩ page 4).bytes? (World.samplePage 0) ≠
      e.store.bytes? (World.samplePage 0) := by
  have he : Reached ⟨World.sampleStore, World.samplePool⟩
      (act ⟨World.sampleStore, World.samplePool⟩ (appendAct 1 0)) :=
    Reached.start.act _ ⟨⟨rfl, rfl⟩, fun _ => ⟨rfl, by decide +kernel⟩⟩
  have hfacts : let e := act ⟨World.sampleStore, World.samplePool⟩ (appendAct 1 0)
      (FlushCall.pages 1).listed e = [World.samplePage 0] ∧
      (e.pool.page? (World.samplePage 0)).any (fun page => decide
        ((page.dirtier ≠ none ∧ e.store.catalog[page.id.table]? = some ⟨World.sampleFile, .none⟩) ∧
          (e.store.putPart ⟨World.sampleFile, .none⟩ page 4).bytes? (World.samplePage 0) ≠
            e.store.bytes? (World.samplePage 0)) && (e.store.writePage page).isOk) = true := by
    decide +kernel
  obtain ⟨hlisted, hfacts⟩ := hfacts
  generalize act ⟨World.sampleStore, World.samplePool⟩ (appendAct 1 0) = e at he hlisted hfacts
  obtain ⟨page, hpage, hfacts⟩ := (Option.any_eq_true _ _).1 hfacts
  obtain ⟨hfacts, hok⟩ := Bool.and_eq_true_iff.1 hfacts
  obtain ⟨⟨hd, hm⟩, hne⟩ := of_decide_eq_true hfacts
  cases hw : e.store.writePage page with
  | ok s => exact ⟨e, page, s, he, hlisted, hpage, hd, hm, hw, hne⟩
  | error x =>
    rw [hw] at hok
    cases hok

/-- The write of a page may break off after the checksum, also if no two tables share a file. If
two tables share a file, a page written for one of them is a page of the other. -/
theorem exists_flush_oversteps :
    (∃ start : Engine, Pool.new 2 .cycleDetection = .ok start.pool ∧ start.store.catalog.Sound ∧
      ¬FlushHalts start) ∧
    ∃ start : Engine, Pool.new 2 .cycleDetection = .ok start.pool ∧ ¬FlushSpares start := by
  refine ⟨⟨⟨World.sampleStore, World.samplePool⟩, rfl, World.sound_sampleStore, fun h => ?_⟩,
    ⟨sharedStore, World.samplePool⟩, rfl, fun h => ?_⟩
  · obtain ⟨e, page, s1, he, hlisted, hpage, hd, hm, hw, hne⟩ := exists_spoiled_page
    have hruns := FlushCall.Runs.broken (c := .pages 1)
      (.intro hlisted (.done e) (.refl _) hpage hd (.torn hm hw 4 (.other "device")))
    refine hne (h he hruns (World.samplePage 0) ?_)
    change World.samplePage 0 ∈ (FlushCall.pages 1).listed e
    rw [hlisted]
    exact List.mem_singleton.2 rfl
  · have hnew : Reached ⟨sharedStore, World.samplePool⟩ ⟨sharedStore, World.samplePool⟩ := .start
    have hdelete := hnew.act
      (.turn 1 ⟨1, ⟨.numbered 1, 0⟩, .exclusive, .remove ⟨⟨.numbered 1, 0⟩, 0⟩⟩ .first) trivial
    have hsame := h hdelete 1 ⟨.numbered 2, 0⟩ (by decide +kernel)
    exact absurd hsame (by decide +kernel)

end PageStore.Engine
