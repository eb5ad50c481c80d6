import PageStore.Disk.Store
import PageStore.Locking.LockTable
import PageStore.Pool.Counters
import PageStore.Pool.Recency

/-!
# The page cache

A pool keeps at most `capacity` pages. Every time a page enters the cache it
gets a new frame with a number of its own; a handle names a page and a frame,
and stays good after the frame has left the cache: it then shows the page as it
was last seen there.

A page that is not yet cached enters a full cache in the place of the clean
page used the longest time ago. Dirty pages are never dropped to make room, and
neither are the frames that are latched by a writer outside the pool.

Results:
* `cached_put`, `order_put`: what putting a page into the cache does to the
  cache and to the order of use.
* `isEvictable_iff`: only clean pages that nobody writes to make room.
* `room_of_contains`: a page that is cached already needs no room.
-/
namespace PageStore

/-- A page in memory: which page, and which time it was brought in. -/
structure Handle where
  page : PageId
  frame : Nat
  deriving DecidableEq, Repr, Inhabited

/-- A cached page and the number of its frame. -/
structure Frame where
  number : Nat
  page : Page
  deriving DecidableEq, Repr, Inhabited

/-- A row to be put into a table. If it needs a new page, `installs` tells
whether that page enters the cache. -/
structure Placement where
  file : HeapFile
  tuple : Tuple
  installs : Bool
  deriving DecidableEq, Repr

/-- What a page is locked for. -/
inductive Purpose
  /-- for the lock alone -/
  | hold
  /-- to be looked at -/
  | fetch
  /-- to put a row on it, or else on a later page before `limit`, or on a new one -/
  | place (job : Placement) (limit : Nat)
  /-- to become the new last page, with a row on it -/
  | append (job : Placement)
  /-- to delete a record from it -/
  | remove (record : RecordId)
  deriving DecidableEq, Repr

/-- A cache of pages, with the locks that guard them. `retired` holds the pages
of the frames that have left the cache, `latched` the frames that holders of a
handle keep latched for writing. -/
structure Pool where
  capacity : Nat
  locks : LockTable Purpose
  cached : Std.TreeMap PageId Frame
  recency : Recency
  counters : Counters
  retired : Std.TreeMap Nat Page
  nextFrame : Nat
  latched : List Handle

/-- A pool and the storage below it. -/
structure Engine where
  store : Store
  pool : Pool

namespace Pool

/-- An empty pool; a pool without capacity is refused. -/
def new (capacity : Nat) (policy : DeadlockPolicy) : Except Misuse Pool :=
  if capacity = 0 then .error .emptyPool
  else .ok ⟨capacity, .new policy, ∅, .empty, .zero, ∅, 0, []⟩

def isCached (c : Pool) (p : PageId) : Bool := c.cached.contains p

def page? (c : Pool) (p : PageId) : Option Page := c.cached[p]?.map Frame.page

/-- The cached dirty pages whose dirtier satisfies `of`, ascending.
mirrors `pages_dirtied_by` -/
def dirtyPages (c : Pool) (of : TxnId → Bool) : List PageId :=
  (c.cached.toList.filter fun e => e.2.page.dirtier.any of).map Prod.fst

/-! ## Handles -/

/-- The page that a handle shows. -/
def deref (c : Pool) (h : Handle) : Option Page :=
  match c.cached[h.page]? with
  | some f => if f.number = h.frame then some f.page else c.retired[h.frame]?
  | none => c.retired[h.frame]?

/-- Sets the dirtier of the page that a handle shows. -/
def mark (c : Pool) (h : Handle) (txn : Option TxnId) : Pool :=
  match c.cached[h.page]? with
  | some f =>
    if f.number = h.frame then
      { c with cached := c.cached.insert h.page { f with page := f.page.withDirtier txn } }
    else { c with retired := c.retired.modify h.frame (·.withDirtier txn) }
  | none => { c with retired := c.retired.modify h.frame (·.withDirtier txn) }

/-- Latches a frame for writing. -/
def latch (c : Pool) (h : Handle) : Pool := { c with latched := h :: c.latched }

/-- Ends one latch of a frame. -/
def unlatch (c : Pool) (h : Handle) : Pool := { c with latched := c.latched.erase h }

/-! ## Entering and leaving the cache -/

/-- Keeps the page of a frame that leaves the cache. -/
def retire (c : Pool) (f : Option Frame) : Std.TreeMap Nat Page :=
  match f with
  | some f => c.retired.insert f.number f.page
  | none => c.retired

/-- Drops a page from the cache.
mirrors `remove_cached` -/
def drop (c : Pool) (p : PageId) : Pool :=
  { c with
    cached := c.cached.erase p
    recency := c.recency.forget p
    retired := c.retire c.cached[p]? }

/-- Whether a cached page may be dropped to make room: it is clean, and its
frame is not latched by a writer. -/
def isEvictable (c : Pool) (p : PageId) : Bool :=
  match c.cached[p]? with
  | some f => !f.page.isDirty && !c.latched.contains ⟨p, f.number⟩
  | none => false

/-- Drops the page used the longest time ago among those that may be dropped.
mirrors `evict` -/
def evict (c : Pool) : Except Error Pool :=
  match c.recency.evict c.isEvictable with
  | some (p, recency) =>
    .ok { c with
      cached := c.cached.erase p
      recency := recency
      retired := c.retire c.cached[p]?
      counters := c.counters.addEviction }
  | none => .error (.noEvictablePage c.cached.size)

/-- Makes room for a page, if it needs any. -/
def room (c : Pool) (p : PageId) : Except Error Pool :=
  if c.isCached p ∨ c.cached.size < c.capacity then .ok c else c.evict

/-- Puts a page into a frame of the cache and makes it the one used last. -/
def put (c : Pool) (p : PageId) (f : Frame) : Pool :=
  { c with cached := c.cached.insert p f, recency := c.recency.touch p }

/-- Brings a page into the cache, in the place of an older copy if there is one.
mirrors `install` -/
def install (c : Pool) (p : PageId) (page : Page) : Except Error (Pool × Frame) :=
  match c.room p with
  | .error e => .error e
  | .ok c =>
    let f : Frame := ⟨c.nextFrame, page⟩
    .ok ({ (c.put p f) with retired := c.retire c.cached[p]?, nextFrame := c.nextFrame + 1 }, f)

/-- The cached copy of a page, which becomes the one used last.
mirrors `cached` -/
def hit (c : Pool) (p : PageId) : Option (Pool × Frame) :=
  c.cached[p]?.map fun f =>
    ({ c with recency := c.recency.touch p, counters := c.counters.addHit }, f)

/-- Puts a changed page, dirty for `txn`, into the frame of its earlier copy.
mirrors `install_dirtied` for a page that is cached -/
def replace (c : Pool) (p : PageId) (f : Frame) (page : Page) (txn : TxnId) : Pool :=
  c.put p ⟨f.number, page.withDirtier (some txn)⟩

theorem cached_put (c : Pool) (p : PageId) (f : Frame) (q : PageId) :
    (c.put p f).cached[q]? = if q = p then some f else c.cached[q]? := by
  simp only [put, Std.TreeMap.getElem?_insert, Std.LawfulEqOrd.compare_eq_iff_eq]
  by_cases h : q = p
  · simp [h]
  · simp [h, Ne.symm h]

theorem order_put (c : Pool) (p : PageId) (f : Frame) : (c.put p f).recency = c.recency.touch p := rfl

theorem isEvictable_iff {c : Pool} {p : PageId} :
    c.isEvictable p = true ↔
      ∃ f, c.cached[p]? = some f ∧ f.page.isDirty = false ∧ ⟨p, f.number⟩ ∉ c.latched := by
  unfold isEvictable
  split
  · next f h => simp [h]
  · next h => simp [h]

theorem room_of_contains {c : Pool} {p : PageId} (h : c.isCached p = true) : c.room p = .ok c := by
  simp [room, h]

end Pool

namespace Engine

/-- The page under a lock already held: the cached copy, or else the stored one,
which enters the cache.
mirrors `fetch` after its `lock_page` -/
def load (e : Engine) (p : PageId) : Engine × Except Error Frame :=
  match e.pool.hit p with
  | some (pool, f) => ({ e with pool }, .ok f)
  | none =>
    let pool := { e.pool with counters := e.pool.counters.addMiss }
    match e.store.readPage p with
    | .error x => ({ e with pool }, .error x)
    | .ok page =>
      let pool := { pool with counters := pool.counters.addRead }
      match pool.install p page with
      | .error x => ({ e with pool }, .error x)
      | .ok (pool, f) => ({ e with pool }, .ok f)

theorem store_load (e : Engine) (p : PageId) : (e.load p).1.store = e.store := by
  unfold load
  split
  · rfl
  · dsimp only
    split
    · rfl
    · split <;> rfl

end Engine
end PageStore
