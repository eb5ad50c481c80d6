import PageStore.Pool.Operation

/-!
# Operations and completions one step after another

Between two steps nobody acts, so an operation takes turn after turn until it
is over or has to wait; under a timeout policy it never has to wait, since its
time is up before anybody else acts. An insert takes at most one turn for each
page, one more for the new page, and the same again if the file has grown while
it slept.

Completing a transaction writes its pages back or restores them, and then
releases its locks, which wakes the requests that sleep on its pages. A failed
commit keeps every lock, and the transaction can still be aborted.

Results:
* `turnsLeft_turn_lt`: every turn that does not end an operation brings its end
  closer.
* `store_perform_fetch`: fetching a page changes nothing in storage.
-/
namespace PageStore.Engine

/-! ## How many turns an operation can take -/

/-- Whole pages in the file of a placement. -/
def pagesOf (s : Store) (job : Placement) : Nat := job.file.fileSize s.volume / job.file.pageSize

/-- The turns of an insert that waits for page number `index` to append it. -/
def turnsToAppend (pages index : Nat) : Nat := if pages = index then 1 else pages - index + 3

/-- A bound on the turns of an operation from a given request on. -/
def turnsLeft (s : Store) (r : LockRequest Purpose) : Nat :=
  match r.purpose with
  | .place job limit => limit - r.page.index + 1 + turnsToAppend (pagesOf s job) limit
  | .append job => turnsToAppend (pagesOf s job) r.page.index
  | .hold | .fetch | .remove _ => 1

theorem turnsLeft_nextPlace_lt {s : Store} {t : TxnId} {job : Placement} {page count : Nat}
    {r : LockRequest Purpose} (h : progressOf t (HeapFile.nextPlace job page count) = .next r) :
    turnsLeft s r ≤ count - page + 1 + turnsToAppend (pagesOf s job) count ∧
      (count ≤ page → turnsLeft s r ≤ turnsToAppend (pagesOf s job) count) := by
  unfold HeapFile.nextPlace at h
  split at h
  · next hlt =>
    cases h
    exact ⟨Nat.le_refl _, fun hc => absurd hlt (by omega)⟩
  · next hlt =>
    cases h
    simp only [turnsLeft]
    exact ⟨by omega, fun _ => Nat.le_refl _⟩

theorem turnsLeft_serve_lt {e e' : Engine} {t : TxnId} {p : PageId} {mode : LockMode}
    {purpose : Purpose} {a : Advance} {r : LockRequest Purpose}
    (h : e.serve t p purpose = (e', a)) (hn : progressOf t a = .next r) :
    turnsLeft e'.store r < turnsLeft e.store ⟨t, p, mode, purpose⟩ := by
  have hs : e'.store = e.store := by
    cases a with
    | done => cases hn
    | ask q m pu =>
      have hq : (e.serve t p purpose).2 = .ask q m pu := by rw [h]
      have := store_serve_ask hq
      rwa [h] at this
  rw [hs]
  cases purpose with
  | hold => cases h; cases hn
  | fetch =>
    simp only [serve, serveFetch] at h
    split at h <;> cases h <;> cases hn
  | place job limit =>
    simp only [serve, servePlace] at h
    split at h
    · cases h; cases hn
    · split at h
      · cases h
        obtain ⟨h1, h2⟩ := turnsLeft_nextPlace_lt (s := e.store) hn
        change turnsLeft e.store r < limit - p.index + 1 + turnsToAppend (pagesOf e.store job) limit
        by_cases hl : limit ≤ p.index + 1
        · have := h2 hl
          omega
        · omega
      · split at h <;> cases h <;> cases hn
  | append job =>
    simp only [serve, serveAppend] at h
    split at h
    · cases h; cases hn
    · next count hc =>
      have hp : count = pagesOf e.store job := (HeapFile.pageCount_eq_ok_iff.1 hc).1
      split at h
      · next hne =>
        cases h
        obtain ⟨h1, h2⟩ := turnsLeft_nextPlace_lt (s := e.store) hn
        change turnsLeft e.store r < turnsToAppend (pagesOf e.store job) p.index
        have h3 : turnsToAppend (pagesOf e.store job) count = 1 := by simp [turnsToAppend, hp]
        have h4 : turnsToAppend (pagesOf e.store job) p.index = count - p.index + 3 := by
          simp [turnsToAppend, ← hp, hne]
        omega
      · split at h
        · cases h; cases hn
        · unfold enter at h
          split at h
          · split at h <;> cases h <;> cases hn
          · cases h; cases hn
  | remove record =>
    simp only [serve, serveRemove] at h
    split at h
    · cases h; cases hn
    · split at h <;> cases h <;> cases hn

theorem turnsLeft_turn_lt {e e' : Engine} {ticket : Ticket} {r r' : LockRequest Purpose} {which : Turn}
    (h : e.turn ticket r which = (e', .next r')) : turnsLeft e'.store r' < turnsLeft e.store r := by
  unfold turn at h
  split at h
  · next locks hl =>
    generalize hg : (e.withLocks locks).serve r.txn r.page r.purpose = sv at h
    obtain ⟨e2, a⟩ := sv
    obtain ⟨rfl, ha⟩ := Prod.mk.inj h
    rw [← store_withLocks e locks]
    exact turnsLeft_serve_lt hg ha
  · cases h
  · cases h

/-! ## Undisturbed operations -/

/-- A turn during which nobody else acts. -/
def turnAlone (e : Engine) (ticket : Ticket) (r : LockRequest Purpose) (which : Turn) :
    Engine × Progress :=
  match e.turn ticket r which with
  | (e, .asleep) =>
    match e.pool.locks.policy with
    | .timeout _ => e.turn ticket r .last
    | .cycleDetection => (e, .asleep)
  | moved => moved

theorem store_turn_asleep {e e' : Engine} {ticket : Ticket} {r : LockRequest Purpose} {which : Turn}
    (h : e.turn ticket r which = (e', .asleep)) : e'.store = e.store := by
  unfold turn at h
  split at h
  · next locks hl =>
    generalize (e.withLocks locks).serve r.txn r.page r.purpose = sv at h
    obtain ⟨e2, a⟩ := sv
    obtain ⟨_, ha⟩ := Prod.mk.inj h
    cases a <;> cases ha
  · cases h; rfl
  · cases h

theorem turnsLeft_turnAlone_lt {e e' : Engine} {ticket : Ticket} {r r' : LockRequest Purpose}
    {which : Turn} (h : e.turnAlone ticket r which = (e', .next r')) :
    turnsLeft e'.store r' < turnsLeft e.store r := by
  unfold turnAlone at h
  split at h
  · next e1 h1 =>
    split at h
    · rw [← store_turn_asleep h1]
      exact turnsLeft_turn_lt h
    · cases h
  · exact turnsLeft_turn_lt h

/-- Where an undisturbed operation comes to rest. -/
inductive Rest
  | done (result : Except Error Outcome)
  | asleep

/-- Takes turn after turn until the operation is over or asleep. -/
def settle (e : Engine) (ticket : Ticket) (r : LockRequest Purpose) (which : Turn) : Engine × Rest :=
  match _moved : e.turnAlone ticket r which with
  | (e, .done result) => (e, .done result)
  | (e, .asleep) => (e, .asleep)
  | (e, .next r) => e.settle ticket r .first
termination_by turnsLeft e.store r
decreasing_by exact turnsLeft_turnAlone_lt _moved

/-- Performs an operation of a transaction as far as it goes. -/
def perform (e : Engine) (ticket : Ticket) (t : TxnId) (op : Operation) : Engine × Rest :=
  match progressOf t (e.begin op) with
  | .done result => (e, .done result)
  | .asleep => (e, .asleep)
  | .next r => e.settle ticket r .first

/-! ## Completions -/

/-- The end of a transaction: its result, and the requests that it woke. -/
structure Completion where
  engine : Engine
  result : Except Error Unit
  woken : List (Ticket × LockRequest Purpose)

/-- Lets go of one page before the transaction ends.
mirrors `release_page` -/
def release (e : Engine) (t : TxnId) (p : PageId) : Engine × List (Ticket × LockRequest Purpose) :=
  let (locks, woken) := e.pool.locks.release t p
  (e.withLocks locks, woken)

/-- Lets go of all pages. -/
def releaseAll (e : Engine) (t : TxnId) : Engine × List (Ticket × LockRequest Purpose) :=
  let (locks, woken) := e.pool.locks.releaseAll t
  (e.withLocks locks, woken)

/-- Writes back what the transaction dirtied and releases its locks. After a
failed write nothing is released.
mirrors `transaction_complete` with `commit` set -/
def keepChanges (e : Engine) (t : TxnId) : Completion :=
  match e.flushTxn t with
  | (e, .error x) => ⟨e, .error x, []⟩
  | (e, .ok _) =>
    let (e, woken) := e.releaseAll t
    ⟨e, .ok (), woken⟩

/-- Takes back what the transaction changed and releases its locks in any case.
mirrors `transaction_complete` with `commit` unset -/
def dropChanges (e : Engine) (t : TxnId) : Completion :=
  let (e, failed) := e.restoreTxn t
  let (e, woken) := e.releaseAll t
  ⟨e, failed.elim (.ok ()) .error, woken⟩

/-- Commits; if that fails, aborts, and reports why the commit failed.
mirrors `commit` -/
def commit (e : Engine) (t : TxnId) : Completion :=
  let kept := e.keepChanges t
  match kept.result with
  | .ok _ => kept
  | .error x => { kept.engine.dropChanges t with result := .error x }

/-- mirrors `abort` -/
def abort (e : Engine) (t : TxnId) : Completion := e.dropChanges t

/-! ## Fetches -/

theorem store_turn_fetch {e : Engine} {ticket : Ticket} {t : TxnId} {p : PageId} {mode : LockMode}
    {which : Turn} :
    (e.turn ticket ⟨t, p, mode, .fetch⟩ which).1.store = e.store ∧
      ∀ r, (e.turn ticket ⟨t, p, mode, .fetch⟩ which).2 ≠ .next r := by
  unfold turn
  split
  · next locks hl =>
    have := store_load (e.withLocks locks) p
    simp only [serve, serveFetch]
    split
    · simp_all [progressOf]
    · simp_all [progressOf]
  · simp
  · exact ⟨rfl, by simp⟩

theorem store_turnAlone_fetch {e : Engine} {ticket : Ticket} {t : TxnId} {p : PageId} {mode : LockMode}
    {which : Turn} :
    (e.turnAlone ticket ⟨t, p, mode, .fetch⟩ which).1.store = e.store ∧
      ∀ r, (e.turnAlone ticket ⟨t, p, mode, .fetch⟩ which).2 ≠ .next r := by
  have h := @store_turn_fetch e ticket t p mode which
  unfold turnAlone
  split
  · next e1 h1 =>
    rw [h1] at h
    split
    · have h2 := @store_turn_fetch e1 ticket t p mode .last
      exact ⟨h2.1.trans h.1, h2.2⟩
    · exact ⟨h.1, by simp⟩
  · exact h

theorem store_perform_fetch (e : Engine) (ticket : Ticket) (t : TxnId) (p : PageId) (mode : LockMode) :
    (e.perform ticket t (.fetch p mode)).1.store = e.store := by
  have h := @store_turnAlone_fetch e ticket t p mode .first
  simp only [perform, begin, progressOf]
  rw [settle]
  split
  · next e1 r h1 => rw [h1] at h; exact h.1
  · next e1 h1 => rw [h1] at h; exact h.1
  · next e1 r h1 => rw [h1] at h; exact absurd rfl (h.2 r)

end PageStore.Engine
