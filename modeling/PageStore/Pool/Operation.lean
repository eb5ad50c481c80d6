import PageStore.Pool.Writeback

/-!
# Operations of transactions on pages

An operation is a sequence of requests for page locks. What happens between a
granted request and the next one happens at once; an operation can only be
interrupted where it asks for a lock. An operation that is asleep is therefore
nothing but the request that it sleeps on, with the purpose of that request.

An insert asks for the table's pages one after another, exclusively, until one
has a free slot. If none has, it asks for the page after the last one. By the
time it gets that lock the file may have grown; it then goes on with the pages
that were added. So a row lands on the first page that has room for it.

Results:
* `store_serve_ask`: going on to the next request changes nothing in storage.
-/
namespace PageStore

/-- What a transaction may ask a pool to do. -/
inductive Operation
  | lock (page : PageId) (mode : LockMode)
  | fetch (page : PageId) (mode : LockMode)
  /-- through the catalog -/
  | insert (table : TableId) (tuple : Tuple)
  /-- on a file itself; a new page stays out of the cache -/
  | insertInto (file : HeapFile) (tuple : Tuple)
  /-- through the catalog -/
  | delete (record : Option RecordId)
  | deleteFrom (file : HeapFile) (record : Option RecordId)
  deriving DecidableEq, Repr

/-- What an operation comes to if it succeeds. -/
inductive Outcome
  | locked
  | fetched (handle : Handle) (page : Page)
  /-- the page that was changed -/
  | changed (page : Page)
  deriving DecidableEq, Repr

/-- How far an operation gets without another lock. -/
inductive Advance
  | done (result : Except Error Outcome)
  | ask (page : PageId) (mode : LockMode) (purpose : Purpose)

namespace HeapFile

/-- The next request of an insert that knows `count` pages and has seen those before `page`.
mirrors the loop of `insert_tuple` -/
def nextPlace (job : Placement) (page count : Nat) : Advance :=
  if page < count then .ask ⟨job.file.id, page⟩ .exclusive (.place job count)
  else .ask ⟨job.file.id, count⟩ .exclusive (.append job)

/-- Begins to put a row into the table.
mirrors `insert_tuple` up to its first lock -/
def beginInsert (f : HeapFile) (v : Volume) (tuple : Tuple) (installs : Bool) : Advance :=
  if tuple.layout.agrees f.layout then
    match f.pageCount v with
    | .error x => .done (.error x)
    | .ok count => nextPlace ⟨f, tuple, installs⟩ 0 count
  else .done (.error (.schemaMismatch f.id))

/-- Begins to delete a record from the table.
mirrors `delete_tuple` up to its `fetch` -/
def beginDelete (f : HeapFile) (record : Option RecordId) : Advance :=
  match record with
  | none => .done (.error .missingRecordId)
  | some r =>
    match f.checkOwner r.page with
    | .error x => .done (.error x)
    | .ok _ => .ask r.page .exclusive (.remove r)

/-- Makes the page after the last one, with a row on it. An empty page is stored
first, or the page with its row, as the file's policy says.
mirrors `append_page` -/
def appendPage (f : HeapFile) (v : Volume) (index : Nat) (tuple : Tuple) :
    Except (Volume × Error) (Volume × Page) :=
  let page := Page.empty ⟨f.id, index⟩ f.layout f.pageSize
  match f.append with
  | .extendEmpty =>
    match f.writePage v page with
    | .error x => .error (v, x)
    | .ok v =>
      match page.insert tuple with
      | .error x => .error (v, x)
      | .ok (page, _) => .ok (v, page)
  | .writeThrough =>
    match page.insert tuple with
    | .error x => .error (v, x)
    | .ok (page, _) =>
      match f.writePage v page with
      | .error x => .error (v, x)
      | .ok v => .ok (v, page)

end HeapFile

namespace Engine

/-- The first request of an operation. -/
def begin (e : Engine) : Operation → Advance
  | .lock page mode => .ask page mode .hold
  | .fetch page mode => .ask page mode .fetch
  | .insert table tuple =>
    match e.store.catalog.lookup table with
    | .error x => .done (.error x)
    | .ok m => m.file.beginInsert e.store.volume tuple true
  | .insertInto file tuple => file.beginInsert e.store.volume tuple false
  | .delete record =>
    match record with
    | none => .done (.error .missingRecordId)
    | some r =>
      match e.store.catalog.lookup r.page.table with
      | .error x => .done (.error x)
      | .ok m => m.file.beginDelete record
  | .deleteFrom file record => file.beginDelete record

/-! ## What a granted request does -/

/-- Shows the page.
mirrors `fetch` after its `lock_page` -/
def serveFetch (e : Engine) (p : PageId) : Engine × Advance :=
  match e.load p with
  | (e, .error x) => (e, .done (.error x))
  | (e, .ok f) => (e, .done (.ok (.fetched ⟨p, f.number⟩ f.page)))

/-- Puts the row on the page if it has a free slot, and goes on to the next page otherwise.
Changing the page and putting it back into the cache are one step here and two in the program,
which lets go of the page in between.
mirrors the loop of `insert_tuple`, then `install_dirtied` -/
def servePlace (e : Engine) (t : TxnId) (p : PageId) (job : Placement) (limit : Nat) :
    Engine × Advance :=
  match e.load p with
  | (e, .error x) => (e, .done (.error x))
  | (e, .ok f) =>
    if f.page.freeCount = 0 then (e, HeapFile.nextPlace job (p.index + 1) limit)
    else
      match f.page.insert job.tuple with
      | .error x => (e, .done (.error x))
      | .ok (page, _) =>
        ({ e with pool := e.pool.replace p f page t },
          .done (.ok (.changed (page.withDirtier (some t)))))

/-- Brings a new page into the cache, if it is to enter it.
mirrors `install_dirtied` for a page that is not cached -/
def enter (e : Engine) (p : PageId) (page : Page) (installs : Bool) : Engine × Advance :=
  if installs then
    match e.pool.install p page with
    | .error x => (e, .done (.error x))
    | .ok (pool, _) => ({ e with pool }, .done (.ok (.changed page)))
  else (e, .done (.ok (.changed page)))

/-- Appends the page with the row, unless the file has changed its length meanwhile. The page is
written through the heap file, so it does not meet the faults of the catalog.
mirrors `insert_tuple` from the lock of the new page on -/
def serveAppend (e : Engine) (t : TxnId) (p : PageId) (job : Placement) : Engine × Advance :=
  match job.file.pageCount e.store.volume with
  | .error x => (e, .done (.error x))
  | .ok count =>
    if count ≠ p.index then (e, HeapFile.nextPlace job p.index count)
    else
      match job.file.appendPage e.store.volume p.index job.tuple with
      | .error (volume, x) => ({ e with store := { e.store with volume } }, .done (.error x))
      | .ok (volume, page) =>
        enter { e with store := { e.store with volume } } p (page.withDirtier (some t)) job.installs

/-- Deletes the record from the page. As with `servePlace`, what is one step here is two in the
program.
mirrors `delete_tuple` from its lock on, then `install_dirtied` -/
def serveRemove (e : Engine) (t : TxnId) (p : PageId) (record : RecordId) : Engine × Advance :=
  match e.load p with
  | (e, .error x) => (e, .done (.error x))
  | (e, .ok f) =>
    match f.page.delete (some record) with
    | .error x => (e, .done (.error x))
    | .ok page =>
      ({ e with pool := e.pool.replace p f page t },
        .done (.ok (.changed (page.withDirtier (some t)))))

/-- Does what the lock was wanted for, up to the next request. -/
def serve (e : Engine) (t : TxnId) (p : PageId) : Purpose → Engine × Advance
  | .hold => (e, .done (.ok .locked))
  | .fetch => e.serveFetch p
  | .place job limit => e.servePlace t p job limit
  | .append job => e.serveAppend t p job
  | .remove record => e.serveRemove t p record

/-! ## Turns -/

/-- What one turn of a request brings. -/
inductive Progress
  | done (result : Except Error Outcome)
  | next (request : LockRequest Purpose)
  | asleep

/-- The request that a transaction's operation makes next, if it is not over. -/
def progressOf (t : TxnId) : Advance → Progress
  | .done result => .done result
  | .ask page mode purpose => .next ⟨t, page, mode, purpose⟩

/-- The engine with another lock table. -/
def withLocks (e : Engine) (locks : LockTable Purpose) : Engine :=
  { e with pool := { e.pool with locks } }

/-- Counts a lock request refused for good. -/
def countAbort (e : Engine) : Engine :=
  { e with pool := { e.pool with counters := e.pool.counters.addLockAbort } }

/-- One turn of a request: the decision about its lock and, if it is granted, what it is for.
mirrors `lock_page`, and what its caller does next -/
def turn (e : Engine) (ticket : Ticket) (r : LockRequest Purpose) (which : Turn) :
    Engine × Progress :=
  match e.pool.locks.request ticket r which with
  | (locks, .granted) =>
    match (e.withLocks locks).serve r.txn r.page r.purpose with
    | (e, advance) => (e, progressOf r.txn advance)
  | (locks, .asleep) => (e.withLocks locks, .asleep)
  | (locks, .aborted) => ((e.withLocks locks).countAbort, .done (.error (.transactionAborted r.txn)))

@[simp] theorem store_withLocks (e : Engine) (locks : LockTable Purpose) :
    (e.withLocks locks).store = e.store := rfl

/-! ## Going on to the next request -/

theorem store_serve_ask {e : Engine} {t : TxnId} {p : PageId} {purpose : Purpose}
    {q : PageId} {mode : LockMode} {purpose' : Purpose}
    (h : (e.serve t p purpose).2 = .ask q mode purpose') : (e.serve t p purpose).1.store = e.store := by
  cases purpose with
  | hold => rfl
  | fetch =>
    have hl := store_load e p
    simp only [serve, serveFetch] at h ⊢
    split <;> simp_all
  | place job limit =>
    have hl := store_load e p
    simp only [serve, servePlace] at h ⊢
    split
    · simp_all
    · next e' f he =>
      rw [he] at h hl
      dsimp only at h
      split
      · exact hl
      · split <;> exact hl
  | append job =>
    simp only [serve, serveAppend] at h ⊢
    split
    · rfl
    · next count hc =>
      rw [hc] at h
      dsimp only at h
      split
      · rfl
      · next hn =>
        rw [if_neg hn] at h
        split at h
        · cases h
        · unfold enter at h
          split at h
          · split at h <;> cases h
          · cases h
  | remove record =>
    have hl := store_load e p
    simp only [serve, serveRemove] at h ⊢
    split
    · simp_all
    · next e' f he =>
      rw [he] at hl
      split <;> exact hl

end Engine
end PageStore
