import PageStore.Scan.Plan

/-!
# Sessions

A session has files, tables, pools, transactions and handles that go by names.
All pools share the storage and the catalog. A name given anew leaves what it
named before as it was: a table stays registered, a replaced pool keeps its
pages, its locks and its sleeping requests, and handles stay good.

A request is submitted under a ticket. If it has to wait it is answered with
the transactions it waits for. When a later step wakes it, that step reports
what became of it; the woken requests take their turns by ticket, each as far
as it gets, after everything that the step releases has been released.

A job may keep a frame latched for writing, of its own pool or another one,
from its submission until it is over, even while it sleeps.

Results:
* `engine_withEngine`: storage and pool are put back as they were taken out.
-/
namespace PageStore

/-- A table by name. `faults` are in force for its pages once it is registered. -/
structure NamedTable where
  file : HeapFile
  faults : Faults
  registered : Bool
  deriving DecidableEq, Repr

/-- What goes with an operation: the name under which the handle of a fetched
page is kept, and the frame of a pool that stays latched for writing until the
operation is over. -/
structure Provision where
  keep : Option String
  latch : Option (Nat × Handle)
  deriving DecidableEq, Repr, Inhabited

/-- What a transaction submits: an operation or a scan. -/
inductive Job
  | operation (op : Operation) (provision : Provision)
  | scan (scan : Scan)

/-- What to do when a sleeping request is over. -/
inductive Waiting
  | operation (provision : Provision)
  | scan (scan : Scan)

/-- The answer to a job. -/
inductive Answer
  | done (result : Except Error Outcome)
  | scanned (entries : List PlanEntry)
  | blocked (on : List TxnId)

/-- What became of a woken request. -/
structure Report where
  ticket : Ticket
  txn : TxnId
  answer : Answer

/-- The pools are numbered in the order in which they were made. -/
structure Session where
  store : Store
  tables : Std.TreeMap String NamedTable
  pools : Std.TreeMap Nat Pool
  poolNames : Std.TreeMap String Nat
  handles : Std.TreeMap String (Nat × Handle)
  waiting : Std.TreeMap Ticket Waiting
  begun : Nat
  active : Std.TreeSet TxnId

namespace Session

def empty : Session := ⟨.empty, ∅, ∅, ∅, ∅, ∅, 0, ∅⟩

/-! ## Tables -/

/-- How a table comes to its file. -/
inductive Opening
  | create
  | attach
  | attachOrCreate
  deriving DecidableEq, Repr

/-- The volume and the heap file after an opening. A table that may have to be
created takes its id from the file. -/
def openFile (v : Volume) (how : Opening) (id : Option TableId) (file : String) (layout : Layout)
    (pageSize : Nat) (append : AppendPolicy) : Volume × Except Error HeapFile :=
  match how with
  | .create => HeapFile.create v id file layout pageSize append
  | .attach => (v, HeapFile.attach v id file layout pageSize append)
  | .attachOrCreate => HeapFile.attachOrCreate v file layout pageSize append

/-- Names a table. -/
def openTable (s : Session) (name : String) (how : Opening) (id : Option TableId) (file : String)
    (layout : Layout) (pageSize : Nat) (append : AppendPolicy) : Session × Except Error HeapFile :=
  let (volume, result) := openFile s.store.volume how id file layout pageSize append
  let s := { s with store := { s.store with volume } }
  match result with
  | .error x => (s, .error x)
  | .ok f => ({ s with tables := s.tables.insert name ⟨f, .none, false⟩ }, .ok f)

/-- Registers a named table in the catalog. -/
def register (s : Session) (name : String) (t : NamedTable) : Session × Except Error TableId :=
  match s.store.catalog.register ⟨t.file, t.faults⟩ with
  | .error x => (s, .error x)
  | .ok catalog =>
    ({ s with
        store := { s.store with catalog }
        tables := s.tables.insert name { t with registered := true } }, .ok t.file.id)

/-- Sets the failures to be expected of a named table. -/
def setFaults (s : Session) (name : String) (t : NamedTable) (faults : Faults) : Session :=
  { s with
    tables := s.tables.insert name { t with faults }
    store := if t.registered then
        { s.store with catalog := s.store.catalog.insert t.file.id ⟨t.file, faults⟩ }
      else s.store }

/-- The ids of all named tables, ascending. -/
def tableIds (s : Session) : List TableId :=
  (Std.TreeSet.ofList (s.tables.toList.map fun t => t.2.file.id)).toList

/-- The first `count` pages of every named table, ascending. -/
def firstPages (s : Session) (count : Nat) : List PageId :=
  s.tableIds.flatMap fun t => (List.range count).map (⟨t, ·⟩)

/-! ## Pools -/

/-- Makes a pool and gives it the name. -/
def makePool (s : Session) (name : String) (capacity : Nat) (policy : DeadlockPolicy) :
    Except Misuse Session :=
  match Pool.new capacity policy with
  | .error m => .error m
  | .ok pool =>
    .ok { s with
      pools := s.pools.insert s.pools.size pool
      poolNames := s.poolNames.insert name s.pools.size }

/-- A pool with the storage below it. -/
def engine? (s : Session) (k : Nat) : Option Engine := s.pools[k]?.map (⟨s.store, ·⟩)

/-- Puts pool and storage back. -/
def withEngine (s : Session) (k : Nat) (e : Engine) : Session :=
  { s with store := e.store, pools := s.pools.insert k e.pool }

/-- Starts the counters of a pool again. -/
def resetCounters (s : Session) (k : Nat) : Session :=
  { s with pools := s.pools.modify k fun c => { c with counters := .zero } }

/-- Edits the bytes of a file directly; a file that is missing is made by that. -/
def editFile (s : Session) (file : String) (edit : SparseFile → SparseFile) : Session :=
  { s with store := { s.store with
      volume := s.store.volume.insert file (edit (s.store.volume.fileOf file)) } }

/-- Writes a page to a table's file directly. -/
def writePage (s : Session) (f : HeapFile) (page : Page) : Session × Except Error Unit :=
  match f.writePage s.store.volume page with
  | .error x => (s, .error x)
  | .ok volume => ({ s with store := { s.store with volume } }, .ok ())

/-- Begins a transaction. -/
def begin (s : Session) : Session × TxnId :=
  ({ s with begun := s.begun + 1, active := s.active.insert (s.begun + 1) }, s.begun + 1)

/-- Takes the handle of a transaction, which can be had once. -/
def take (s : Session) (t : TxnId) : Option Session :=
  if s.active.contains t then some { s with active := s.active.erase t } else none

/-- The page that a named handle shows. -/
def deref (s : Session) (name : String) : Option Page :=
  s.handles[name]?.bind fun h => s.pools[h.1]?.bind (·.deref h.2)

/-- Sets the dirtier of the page that a named handle shows. -/
def mark (s : Session) (h : Nat × Handle) (txn : Option TxnId) : Session :=
  { s with pools := s.pools.modify h.1 (·.mark h.2 txn) }

/-- Latches a frame of a pool, if one is given. -/
def latch (s : Session) : Option (Nat × Handle) → Session
  | some (k, h) => { s with pools := s.pools.modify k (·.latch h) }
  | none => s

/-- Ends the latch of a frame, if one is given. -/
def unlatch (s : Session) : Option (Nat × Handle) → Session
  | some (k, h) => { s with pools := s.pools.modify k (·.unlatch h) }
  | none => s

/-! ## Jobs -/

/-- Keeps the handle of a fetched page under a name. -/
def keepHandle (s : Session) (k : Nat) (keep : Option String) (result : Except Error Outcome) :
    Session :=
  match keep, result with
  | some name, .ok (.fetched h _) => { s with handles := s.handles.insert name (k, h) }
  | _, _ => s

/-- Lets a request wait. -/
def await (s : Session) (k : Nat) (e : Engine) (ticket : Ticket) (t : TxnId) (w : Waiting) :
    Session × Answer :=
  ({ s.withEngine k e with waiting := s.waiting.insert ticket w }, .blocked (e.pool.locks.waitsFor t))

/-- Takes note of where an operation came to rest. -/
def afterOperation (s : Session) (k : Nat) (ticket : Ticket) (t : TxnId) (p : Provision) :
    Engine × Engine.Rest → Session × Answer
  | (e, .done result) =>
    (((s.withEngine k e).unlatch p.latch).keepHandle k p.keep result, .done result)
  | (e, .asleep) => s.await k e ticket t (.operation p)

/-- Takes note of where a scan came to rest. -/
def afterScan (s : Session) (k : Nat) (ticket : Ticket) (t : TxnId) :
    Engine × Engine.ScanRest → Session × Answer
  | (e, .done entries) => (s.withEngine k e, .scanned entries)
  | (e, .asleep scan) => s.await k e ticket t (.scan scan)

/-- Submits a job to a pool. The frame to be latched may be one of the same pool. -/
def submit (s : Session) (k : Nat) (e : Engine) (ticket : Ticket) (t : TxnId) : Job → Session × Answer
  | .operation op p =>
    let s := s.latch p.latch
    s.afterOperation k ticket t p (((s.engine? k).getD e).perform ticket t op)
  | .scan scan => s.afterScan k ticket t (e.beginScan ticket t scan)

/-- Lets a woken request go on, and what waited for it. -/
def wakeOne (s : Session) (k : Nat) (e : Engine) (ticket : Ticket) (r : LockRequest Purpose) :
    Session × Answer :=
  let w := (s.waiting[ticket]?).getD (.operation default)
  let s := { s with waiting := s.waiting.erase ticket }
  match e.settle ticket r .woken with
  | (e, .asleep) => s.await k e ticket r.txn w
  | (e, .done result) =>
    match w with
    | .operation p => s.afterOperation k ticket r.txn p (e, .done result)
    | .scan scan => s.afterScan k ticket r.txn (e.resumeScan ticket r.txn scan result)

/-- Lets woken requests go on one after another. -/
def wake (s : Session) (k : Nat) : List (Ticket × LockRequest Purpose) → Session × List Report
  | [] => (s, [])
  | (ticket, r) :: rest =>
    match s.engine? k with
    | none => (s, [])
    | some e =>
      let (s, answer) := s.wakeOne k e ticket r
      let (s, reports) := s.wake k rest
      (s, ⟨ticket, r.txn, answer⟩ :: reports)

/-- Takes note of the end of a transaction. -/
def afterCompletion (s : Session) (k : Nat) (c : Engine.Completion) :
    Session × Except Error Unit × List Report :=
  let (s, reports) := (s.withEngine k c.engine).wake k c.woken
  (s, c.result, reports)

/-- Takes note of an early release. -/
def afterRelease (s : Session) (k : Nat) (r : Engine × List (Ticket × LockRequest Purpose)) :
    Session × List Report :=
  (s.withEngine k r.1).wake k r.2

theorem engine_withEngine (s : Session) (k : Nat) (e : Engine) :
    (s.withEngine k e).engine? k = some e := by
  simp [engine?, withEngine]

end Session
end PageStore
