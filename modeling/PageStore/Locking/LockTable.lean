import PageStore.Locking.Components
import PageStore.Settings

/-!
# The table of page locks

A page is locked by one transaction exclusively or shared by any number. A
request that cannot be granted falls asleep and stays in the table under its
ticket; a release names the sleepers of the released page, which then try
again, each from where it slept. A request is decided anew at every turn.

Under cycle detection a refused request records whom it waits for, and fails
at once if that closes a ring. The record of a sleeper changes only at its own
turns. Under a timeout nothing is recorded, and a request fails when its time
is up.

Results:
* `decide_none`: an unlocked page is granted.
* `holders_request_of_ne`, `modeOf_request_of_ne`: a request concerns its own
  page only.
-/
namespace PageStore

/-- Who holds a page, and how. -/
structure LockEntry where
  mode : LockMode
  holders : Std.TreeSet TxnId

namespace LockEntry

/-- Whether `t` is the one holder. -/
def isSole (e : LockEntry) (t : TxnId) : Bool := e.holders.size == 1 && e.holders.contains t

/-- The holders other than `t`, ascending. -/
def others (e : LockEntry) (t : TxnId) : List TxnId := e.holders.toList.filter (· != t)

/-- What is left of the entry when `t` lets go; an entry without holders disappears.
mirrors `remove_holder` -/
def without (e : LockEntry) (t : TxnId) : Option LockEntry :=
  if (e.holders.erase t).isEmpty then none else some { e with holders := e.holders.erase t }

end LockEntry

/-- Whether a request can be granted, and what becomes of the page's entry if so. -/
inductive Decision
  | grant (entry : LockEntry)
  | refuse (blockers : List TxnId)

/-- Decides about one request on a page. A page without an entry is free; readers
share; a sole holder has all it asks for, and its lock becomes exclusive if it asks
for that; everything else waits for the other holders.
mirrors `decide` -/
def LockEntry.decide : Option LockEntry → TxnId → LockMode → Decision
  | none, t, mode => .grant ⟨mode, (∅ : Std.TreeSet TxnId).insert t⟩
  | some e, t, mode =>
    match mode, e.mode with
    | .shared, .shared => .grant { e with holders := e.holders.insert t }
    | .shared, .exclusive => if e.isSole t then .grant e else .refuse (e.others t)
    | .exclusive, _ =>
      if e.isSole t then .grant { e with mode := .exclusive } else .refuse (e.others t)

/-- A request for a lock on a page, with what it is wanted for. -/
structure LockRequest (α : Type) where
  txn : TxnId
  page : PageId
  mode : LockMode
  purpose : α
  deriving DecidableEq

/-- A turn of a request: its first, one after it was woken, or the last one, when its time is up. -/
inductive Turn
  | first
  | woken
  | last
  deriving DecidableEq, Repr

/-- What a turn brings. -/
inductive Verdict
  | granted
  | asleep
  | aborted
  deriving DecidableEq, Repr

/-- Requests are numbered in the order in which they were made. -/
abbrev Ticket := Nat

/-- The locks on pages, from both sides; the recorded waits; and the sleeping requests. -/
structure LockTable (α : Type) where
  policy : DeadlockPolicy
  entries : Std.TreeMap PageId LockEntry
  held : Std.TreeMap TxnId (Std.TreeSet PageId)
  waits : WaitGraph
  sleepers : Std.TreeMap Ticket (LockRequest α)

namespace LockTable

variable {α : Type}

def new (policy : DeadlockPolicy) : LockTable α := ⟨policy, ∅, ∅, .empty, ∅⟩

/-! ## Queries -/

/-- The holders of a page. -/
def holdersSet (l : LockTable α) (p : PageId) : Std.TreeSet TxnId :=
  (l.entries[p]?.map LockEntry.holders).getD ∅

/-- The holders of a page, ascending. -/
def holders (l : LockTable α) (p : PageId) : List TxnId := (l.holdersSet p).toList

def modeOf? (l : LockTable α) (p : PageId) : Option LockMode := l.entries[p]?.map LockEntry.mode

/-- Whether `t` holds a lock on the page. -/
def holds (l : LockTable α) (t : TxnId) (p : PageId) : Bool := (l.holdersSet p).contains t

/-- The pages that `t` holds locks on. -/
def pagesSet (l : LockTable α) (t : TxnId) : Std.TreeSet PageId := l.held.getD t ∅

/-- The pages that `t` holds locks on, ascending. -/
def lockedPages (l : LockTable α) (t : TxnId) : List PageId := (l.pagesSet t).toList

/-- The transactions that `t` is recorded to wait for, ascending. -/
def waitsFor (l : LockTable α) (t : TxnId) : List TxnId := l.waits.waitsFor t

/-- The sleeping requests on pages that satisfy `on`, by ticket. -/
def sleepersOn (l : LockTable α) (on : PageId → Bool) : List (Ticket × LockRequest α) :=
  l.sleepers.toList.filter fun s => on s.2.page

/-! ## Requests -/

/-- Puts a granted request into effect. A request that had slept no longer waits. -/
def grant (l : LockTable α) (ticket : Ticket) (r : LockRequest α) (turn : Turn) (entry : LockEntry) :
    LockTable α :=
  { l with
    entries := l.entries.insert r.page entry
    held := l.held.insert r.txn ((l.pagesSet r.txn).insert r.page)
    waits := if turn ≠ .first ∧ l.policy = .cycleDetection then l.waits.removeWaiter r.txn
      else l.waits
    sleepers := l.sleepers.erase ticket }

/-- Lets a refused request sleep, or fail if it may not. -/
def refuse (l : LockTable α) (ticket : Ticket) (r : LockRequest α) (turn : Turn)
    (blockers : List TxnId) : LockTable α × Verdict :=
  match l.policy with
  | .cycleDetection =>
    let waits := l.waits.setWaits r.txn blockers
    if waits.hasCycle then
      ({ l with waits := waits.removeWaiter r.txn, sleepers := l.sleepers.erase ticket }, .aborted)
    else ({ l with waits, sleepers := l.sleepers.insert ticket r }, .asleep)
  | .timeout _ =>
    if turn = .last then ({ l with sleepers := l.sleepers.erase ticket }, .aborted)
    else ({ l with sleepers := l.sleepers.insert ticket r }, .asleep)

/-- One turn of a request.
mirrors one turn of the loop of `acquire` -/
def request (l : LockTable α) (ticket : Ticket) (r : LockRequest α) (turn : Turn) :
    LockTable α × Verdict :=
  match LockEntry.decide l.entries[r.page]? r.txn r.mode with
  | .grant entry => (l.grant ticket r turn entry, .granted)
  | .refuse blockers => l.refuse ticket r turn blockers

/-! ## Releases -/

/-- The entries after `t` let go of a page.
mirrors `release_slot` -/
def releaseEntry (entries : Std.TreeMap PageId LockEntry) (t : TxnId) (p : PageId) :
    Std.TreeMap PageId LockEntry :=
  match entries[p]? with
  | none => entries
  | some e =>
    match e.without t with
    | some e' => entries.insert p e'
    | none => entries.erase p

/-- The pages held by each transaction after `t` let go of one. -/
def releaseHeld (held : Std.TreeMap TxnId (Std.TreeSet PageId)) (t : TxnId) (p : PageId) :
    Std.TreeMap TxnId (Std.TreeSet PageId) :=
  let pages := (held.getD t ∅).erase p
  if pages.isEmpty then held.erase t else held.insert t pages

/-- Lets go of one page. Its sleepers are woken even if `t` did not hold it.
mirrors `release` -/
def release (l : LockTable α) (t : TxnId) (p : PageId) :
    LockTable α × List (Ticket × LockRequest α) :=
  ({ l with entries := releaseEntry l.entries t p, held := releaseHeld l.held t p },
    l.sleepersOn (· == p))

/-- Lets go of all pages of `t` and forgets all waits from it and for it. The
sleepers of the released pages are woken.
mirrors `release_all` -/
def releaseAll (l : LockTable α) (t : TxnId) : LockTable α × List (Ticket × LockRequest α) :=
  ({ l with
      entries := (l.lockedPages t).foldl (releaseEntry · t ·) l.entries
      held := l.held.erase t
      waits := l.waits.removeTxn t },
    l.sleepersOn (l.pagesSet t).contains)

/-! ## What one request leaves alone -/

@[simp] theorem decide_none (t : TxnId) (mode : LockMode) :
    LockEntry.decide none t mode = .grant ⟨mode, (∅ : Std.TreeSet TxnId).insert t⟩ := rfl

theorem entries_refuse (l : LockTable α) (ticket : Ticket) (r : LockRequest α) (turn : Turn)
    (blockers : List TxnId) : (l.refuse ticket r turn blockers).1.entries = l.entries := by
  unfold refuse
  split
  · dsimp only
    split <;> rfl
  · split <;> rfl

theorem entries_request_of_ne (l : LockTable α) (ticket : Ticket) (r : LockRequest α) (turn : Turn)
    {p : PageId} (h : p ≠ r.page) : (l.request ticket r turn).1.entries[p]? = l.entries[p]? := by
  unfold request
  split
  · simp [grant, Std.TreeMap.getElem?_insert, Ne.symm h]
  · rw [entries_refuse]

theorem holders_request_of_ne (l : LockTable α) (ticket : Ticket) (r : LockRequest α) (turn : Turn)
    {p : PageId} (h : p ≠ r.page) : (l.request ticket r turn).1.holders p = l.holders p := by
  simp only [holders, holdersSet, entries_request_of_ne l ticket r turn h]

theorem modeOf_request_of_ne (l : LockTable α) (ticket : Ticket) (r : LockRequest α) (turn : Turn)
    {p : PageId} (h : p ≠ r.page) : (l.request ticket r turn).1.modeOf? p = l.modeOf? p := by
  simp only [modeOf?, entries_request_of_ne l ticket r turn h]

end LockTable
end PageStore
