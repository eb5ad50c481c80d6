import PageStore.Proofs.Pool.Serving

/-!
# Transactions at work on one engine

A world is an engine with the operations that are under way, at most one for
each transaction, and a chronicle of what came of them. An event is one thing
that can happen next: a transaction starts an operation, or takes a turn with
the one it has; it commits or aborts; somebody flushes or discards pages; a
table begins to fail, or stops; a frame is latched or unlatched. A turn may
come at any time, so sleeping requests wake in any order, also when nothing was
released; and the events of all transactions may follow one another in any way.
A scan is a sequence of fetches.

The chronicle notes every successful insert and delete, with the page that it
changed and the content this page had just before, and every end of a
transaction.

Results:
* `reachable_of_run`: a list of events leads to a reachable world.
* `happens`: everything that a step can do; for a turn also `turn_step`.
-/
namespace PageStore

/-- What a successful insert or delete did. -/
inductive Change
  | insert (table : TableId) (tuple : Tuple)
  | delete (record : RecordId)
  deriving DecidableEq, Repr

/-- The change that an operation makes if it succeeds. -/
def Operation.change? : Operation → Option Change
  | .insert table tuple => some (.insert table tuple)
  | .delete record => record.map .delete
  | _ => none

/-- Operations that go through the catalog, with rows whose values follow their layout. -/
def Operation.isProper : Operation → Bool
  | .lock .. | .fetch .. | .delete _ => true
  | .insert _ tuple =>
    decide (tuple.fields.map Field.type = tuple.layout.types) && tuple.fields.all Field.fits
  | .insertInto .. | .deleteFrom .. => false

/-- An operation under way: the request that it makes next, or sleeps on. -/
structure Activity where
  ticket : Ticket
  operation : Operation
  request : LockRequest Purpose
  asleep : Bool

/-- Something worth noting. -/
inductive Entry
  /-- an operation succeeded in changing a page, which showed `before` until then -/
  | changed (t : TxnId) (change : Change) (page : PageId) (before : Option Grid)
  /-- a transaction committed or aborted -/
  | ended (t : TxnId) (kept : Bool)
  deriving DecidableEq, Repr

/-- An engine, the operations under way, and what has happened, latest first. -/
structure World where
  engine : Engine
  active : Std.TreeMap TxnId Activity
  chronicle : List Entry

/-- Something that can happen. -/
inductive Event
  | start (t : TxnId) (ticket : Ticket) (operation : Operation)
  | turn (t : TxnId) (which : Turn)
  | keep (t : TxnId)
  | drop (t : TxnId)
  | flushPage (p : PageId)
  | flushTxn (t : TxnId)
  | flushAll
  | discard (p : PageId)
  | fail (table : TableId) (faults : Faults)
  | latch (h : Handle)
  | unlatch (h : Handle)
  deriving DecidableEq, Repr

/-- Events that write dirty pages back and do nothing else. -/
def Event.isFlush : Event → Bool
  | .flushPage _ | .flushTxn _ | .flushAll => true
  | _ => false

/-- Events that only latch or unlatch a frame. -/
def Event.isLatch : Event → Bool
  | .latch _ | .unlatch _ => true
  | _ => false

namespace World

/-- A world in which nothing has happened yet. -/
def fresh (store : Store) (pool : Pool) : World := ⟨⟨store, pool⟩, ∅, []⟩

/-- What a turn of `t` adds to the chronicle. -/
def note (w : World) (t : TxnId) (a : Activity) (result : Except Error Outcome) : List Entry :=
  match a.operation.change?, result with
  | some c, .ok (.changed page) => [.changed t c page.id (w.engine.content? page.id)]
  | _, _ => []

/-- The world after a turn of `t`, which left the engine as `e`. -/
def turned (w : World) (t : TxnId) (a : Activity) (e : Engine) : Engine.Progress → World
  | .done result => ⟨e, w.active.erase t, w.note t a result ++ w.chronicle⟩
  | .next r =>
    { w with engine := e, active := w.active.insert t { a with request := r, asleep := false } }
  | .asleep => { w with engine := e, active := w.active.insert t { a with asleep := true } }

/-- The world after an event, if it can happen. A transaction that is busy with
an operation neither starts another nor ends; a turn is the first of its
request unless the request sleeps. -/
def step (w : World) : Event → Option World
  | .start t ticket operation =>
    if (w.active[t]?).isNone && operation.isProper then
      match w.engine.begin operation with
      | .done _ => some w
      | .ask p mode purpose =>
        some { w with active := w.active.insert t ⟨ticket, operation, ⟨t, p, mode, purpose⟩, false⟩ }
    else none
  | .turn t which =>
    match w.active[t]? with
    | none => none
    | some a =>
      if a.asleep = decide (which ≠ .first) then
        let (e, progress) := w.engine.turn a.ticket a.request which
        some (w.turned t a e progress)
      else none
  | .keep t =>
    if (w.active[t]?).isNone then
      let kept := w.engine.keepChanges t
      match kept.result with
      | .ok _ => some { w with engine := kept.engine, chronicle := .ended t true :: w.chronicle }
      | .error _ => some { w with engine := kept.engine }
    else none
  | .drop t =>
    if (w.active[t]?).isNone then
      some { w with
        engine := (w.engine.dropChanges t).engine
        chronicle := .ended t false :: w.chronicle }
    else none
  | .flushPage p => some { w with engine := (w.engine.flushPage p).1 }
  | .flushTxn t => some { w with engine := (w.engine.flushTxn t).1 }
  | .flushAll => some { w with engine := w.engine.flushAll.1 }
  | .discard p => some { w with engine := (w.engine.discard p).1 }
  | .fail table faults =>
    some { w with engine := { w.engine with store := w.engine.store.withFaults table faults } }
  | .latch h => some { w with engine := { w.engine with pool := w.engine.pool.latch h } }
  | .unlatch h => some { w with engine := { w.engine with pool := w.engine.pool.unlatch h } }

/-- The world after a list of events, if they can happen one after another. -/
def run (w : World) : List Event → Option World
  | [] => some w
  | event :: events =>
    match w.step event with
    | some w => w.run events
    | none => none

/-- The worlds that allowed events lead to. -/
inductive Reachable (allowed : Event → Prop) (start : World) : World → Prop
  | start : Reachable allowed start start
  | step {w w' : World} (event : Event) (h : Reachable allowed start w) (ha : allowed event)
      (hs : w.step event = some w') : Reachable allowed start w'

theorem Reachable.mono {allowed allowed' : Event → Prop} {start w : World}
    (h : ∀ event, allowed event → allowed' event) (hw : Reachable allowed start w) :
    Reachable allowed' start w := by
  induction hw with
  | start => exact .start
  | step event _ ha hs ih => exact ih.step event (h event ha) hs

theorem reachable_of_run {allowed : Event → Prop} {start : World} :
    ∀ (events : List Event) {w w' : World}, Reachable allowed start w →
      (∀ event ∈ events, allowed event) → w.run events = some w' → Reachable allowed start w'
  | [], w, w', hw, _, h => by
    cases h
    exact hw
  | event :: events, w, w', hw, ha, h => by
    rw [run] at h
    split at h
    · next w1 h1 =>
      refine reachable_of_run events (.step event hw (ha event (by simp)) h1) ?_ h
      intro event' he
      exact ha event' (by simp [he])
    · cases h

@[simp] theorem engine_turned (w : World) (t : TxnId) (a : Activity) (e : Engine)
    (progress : Engine.Progress) : (w.turned t a e progress).engine = e := by
  cases progress <;> rfl

theorem note_changed {w : World} {a : Activity} {change : Change}
    (h : a.operation.change? = some change) (t : TxnId) (page : Page) :
    w.note t a (.ok (.changed page)) = [.changed t change page.id (w.engine.content? page.id)] := by
  unfold note
  rw [h]

/-- Everything that can happen, and under which conditions. -/
inductive Happens (w : World) : Event → World → Prop
  /-- an operation that is over without a lock -/
  | idle {t : TxnId} {ticket : Ticket} {operation : Operation} : Happens w (.start t ticket operation) w
  | begun {t : TxnId} {ticket : Ticket} {operation : Operation} {p : PageId} {mode : LockMode}
      {purpose : Purpose} (hidle : w.active[t]? = none) (ho : operation.isProper = true)
      (hb : w.engine.begin operation = .ask p mode purpose) :
      Happens w (.start t ticket operation) { w with
        active := w.active.insert t ⟨ticket, operation, ⟨t, p, mode, purpose⟩, false⟩ }
  | turned {t : TxnId} {which : Turn} {a : Activity} (ha : w.active[t]? = some a)
      (hturn : a.asleep = decide (which ≠ .first)) :
      Happens w (.turn t which) (w.turned t a (w.engine.turn a.ticket a.request which).1
        (w.engine.turn a.ticket a.request which).2)
  | kept {t : TxnId} (hidle : w.active[t]? = none) (hok : (w.engine.keepChanges t).result = .ok ()) :
      Happens w (.keep t) { w with
        engine := (w.engine.keepChanges t).engine
        chronicle := .ended t true :: w.chronicle }
  /-- a commit that breaks off -/
  | broken {t : TxnId} {x : Error} (hx : (w.engine.keepChanges t).result = .error x) :
      Happens w (.keep t) { w with engine := (w.engine.keepChanges t).engine }
  | dropped {t : TxnId} (hidle : w.active[t]? = none) :
      Happens w (.drop t) { w with
        engine := (w.engine.dropChanges t).engine
        chronicle := .ended t false :: w.chronicle }
  | flushed {event : Event} (ps : List PageId) (he : event.isFlush = true) :
      Happens w event { w with engine := (w.engine.flushEach ps).1 }
  | discarded {p : PageId} : Happens w (.discard p) { w with engine := (w.engine.discard p).1 }
  | failing {table : TableId} {faults : Faults} :
      Happens w (.fail table faults)
        { w with engine := { w.engine with store := w.engine.store.withFaults table faults } }
  | latching {event : Event} (latched : List Handle) (he : event.isLatch = true) :
      Happens w event { w with engine := { w.engine with pool := { w.engine.pool with latched } } }

theorem happens {w w' : World} {event : Event} (h : w.step event = some w') : w.Happens event w' := by
  cases event with
  | start t ticket operation =>
    rw [step] at h
    split at h
    · next hready =>
      rw [Bool.and_eq_true] at hready
      split at h
      · cases h
        exact .idle
      · next p mode purpose hb =>
        cases h
        exact .begun (Option.isNone_iff_eq_none.1 hready.1) hready.2 hb
    · cases h
  | turn t which =>
    rw [step] at h
    split at h
    · cases h
    · next a ha =>
      split at h
      · next hturn =>
        cases h
        exact .turned ha hturn
      · cases h
  | keep t =>
    rw [step] at h
    split at h
    · next hidle =>
      dsimp only at h
      split at h
      · next hok =>
        cases h
        exact .kept (Option.isNone_iff_eq_none.1 hidle) hok
      · next hx =>
        cases h
        exact .broken hx
    · cases h
  | drop t =>
    rw [step] at h
    split at h
    · next hidle =>
      cases h
      exact .dropped (Option.isNone_iff_eq_none.1 hidle)
    · cases h
  | flushPage p => cases h; exact .flushed [p] rfl
  | flushTxn t => cases h; exact .flushed _ rfl
  | flushAll => cases h; exact .flushed _ rfl
  | discard p => cases h; exact .discarded
  | fail table faults => cases h; exact .failing
  | latch h' => cases h; exact .latching _ rfl
  | unlatch h' => cases h; exact .latching _ rfl

/-- A turn is taken by the operation that a transaction has under way. -/
theorem turn_step {w w' : World} {t : TxnId} {which : Turn} (h : w.step (.turn t which) = some w') :
    ∃ a, w.active[t]? = some a ∧
      w' = w.turned t a (w.engine.turn a.ticket a.request which).1
        (w.engine.turn a.ticket a.request which).2 := by
  cases happens h with
  | turned ha _ => exact ⟨_, ha, rfl⟩
  | flushed _ he => cases he
  | latching _ he => cases he

/-! ## A small world -/

/-- A table of integers whose pages hold two rows, in an empty file. -/
def sampleFile : HeapFile := ⟨.numbered 1, "rows", .ofTypes [.int], 13, .extendEmpty⟩

def sampleStore : Store :=
  ⟨(∅ : Volume).insert "rows" SparseFile.empty,
    (∅ : Catalog).insert (.numbered 1) ⟨sampleFile, .none⟩⟩

/-- A pool of two pages. -/
def samplePool : Pool := ⟨2, .new .cycleDetection, ∅, .empty, .zero, ∅, 0, []⟩

def sampleRow (n : Int32) : Tuple := ⟨.ofTypes [.int], [.int n], none⟩

def samplePage (index : Nat) : PageId := ⟨.numbered 1, index⟩

theorem mount_sampleStore {t : TableId} {m : Mount} (h : sampleStore.catalog[t]? = some m) :
    t = .numbered 1 ∧ m = ⟨sampleFile, .none⟩ := by
  change (Std.TreeMap.insert ∅ (TableId.numbered 1) (⟨sampleFile, .none⟩ : Mount))[t]? = some m at h
  rw [Std.TreeMap.getElem?_insert] at h
  split at h
  · next ht => exact ⟨(Std.LawfulEqCmp.compare_eq_iff_eq.1 ht).symm, (Option.some.inj h).symm⟩
  · simp at h

theorem sound_sampleStore : sampleStore.catalog.Sound := by
  have hr : Catalog.register ∅ ⟨sampleFile, .none⟩ = .ok sampleStore.catalog := by
    unfold Catalog.register
    rw [Std.TreeMap.contains_emptyc]
    rfl
  have hf : HeapFile.make (.numbered 1) "rows" (.ofTypes [.int]) 13 .extendEmpty = .ok sampleFile :=
    rfl
  refine Catalog.sound_register Catalog.sound_empty hf ?_ hr
  intro t m h
  simp at h

end World
end PageStore
