import PageStore.Pool.Basic

/-!
# Writing dirty pages back, and taking changes back

A flush stores dirty pages by ascending page id and stops at the first failure;
the pages before it are clean then, it and the later ones stay dirty. A restore
gives the dirty pages of a transaction their stored content again; a page that
cannot be read is dropped from the cache instead, and the first such failure is
reported after all pages were dealt with.

Results:
* `flush_of_clean`: a page that is not cached or not dirty needs no writing.
-/
namespace PageStore.Engine

/-- Writes the cached copy of a page to storage if it is dirty.
mirrors `flush_ref` -/
def flush (e : Engine) (p : PageId) : Except Error Engine :=
  match e.pool.cached[p]? with
  | none => .ok e
  | some f =>
    if f.page.isDirty then
      match e.store.writePage f.page with
      | .error x => .error x
      | .ok store =>
        .ok ⟨store, { e.pool with
          cached := e.pool.cached.insert p { f with page := f.page.withDirtier none }
          counters := e.pool.counters.addWrite }⟩
    else .ok e

/-- Flushes pages one after another, up to the first failure. -/
def flushEach (e : Engine) : List PageId → Engine × Except Error Unit
  | [] => (e, .ok ())
  | p :: ps =>
    match e.flush p with
    | .error x => (e, .error x)
    | .ok e => e.flushEach ps

/-- Flushes what a transaction dirtied.
mirrors `flush_pages` -/
def flushTxn (e : Engine) (t : TxnId) : Engine × Except Error Unit :=
  e.flushEach (e.pool.dirtyPages (· == t))

/-- Flushes every dirty page.
mirrors `flush_all_pages` -/
def flushAll (e : Engine) : Engine × Except Error Unit :=
  e.flushEach (e.pool.dirtyPages fun _ => true)

/-- Flushes one page.
mirrors `flush_page` -/
def flushPage (e : Engine) (p : PageId) : Engine × Except Error Unit := e.flushEach [p]

/-- Flushes one page and drops it from the cache.
mirrors `discard_page` -/
def discard (e : Engine) (p : PageId) : Engine × Except Error Unit :=
  match e.flush p with
  | .error x => (e, .error x)
  | .ok e => ({ e with pool := e.pool.drop p }, .ok ())

/-- Gives a cached page its stored content again, or drops it if that cannot be read.
mirrors one turn of the loop of `restore_pages` -/
def restore (e : Engine) (p : PageId) : Engine × Option Error :=
  match e.store.readPage p with
  | .error x => ({ e with pool := e.pool.drop p }, some x)
  | .ok page =>
    ({ e with pool := { e.pool with
        cached := e.pool.cached.modify p fun f => { f with page }
        counters := e.pool.counters.addReread } }, none)

/-- Restores pages one after another; the first failure is reported. -/
def restoreEach (e : Engine) : List PageId → Engine × Option Error
  | [] => (e, none)
  | p :: ps =>
    let (e, first) := e.restore p
    let (e, later) := e.restoreEach ps
    (e, first <|> later)

/-- Takes back what a transaction changed.
mirrors `restore_pages` -/
def restoreTxn (e : Engine) (t : TxnId) : Engine × Option Error :=
  e.restoreEach (e.pool.dirtyPages (· == t))

theorem flush_of_clean {e : Engine} {p : PageId}
    (h : ∀ page, e.pool.page? p = some page → page.isDirty = false) : e.flush p = .ok e := by
  unfold flush
  split
  · rfl
  · next f hf => simp [h f.page (by simp [Pool.page?, hf])]

end PageStore.Engine
