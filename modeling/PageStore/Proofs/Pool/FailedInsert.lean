import PageStore.Proofs.Pool.InsertTurns

/-!
# Inserts that fail

An insert may fail at any of its turns: a lock is refused, a page cannot be read, there
is nothing to evict, or the write of the new page breaks off. Others act between its
turns, so what the insert did is what happened in its own turns; they are recorded one
by one. None of them changes a row that can be seen or that is stored, unless the table
stores new pages with their row, and the insert fails after that.

This takes tables that do not share files: otherwise a page in the cache may be out of
date, which is seen when an insert evicts it.

Results:
* `Course.rows`, `Called.rows`: what the turns of an insert that fails do to rows.
* `called_perform`: an insert that nobody disturbs is a call.
* `failed_insert_keeps_rows`: a failed insert in any engine that can be reached.
* `exists_failed_insert_seen`: rows that are stored or seen to change all the same.
-/
namespace PageStore.Engine

variable {e e' : Engine} {t : TxnId} {r : LockRequest Purpose} {job : Placement}

/-! ## Calls -/

/-- A request from a state on, until its operation is over. Others act in between. `moves` are
the states before and after each turn of the operation itself. -/
inductive Course : Engine → LockRequest Purpose → List (Engine × Engine) → Except Error Outcome → Prop
  | ended {e e' : Engine} {r : LockRequest Purpose} {result : Except Error Outcome}
      (h : Move e r e' (.done result)) : Course e r [(e, e')] result
  | slept {e e' : Engine} {r : LockRequest Purpose} {moves : List (Engine × Engine)}
      {result : Except Error Outcome} (h : Move e r e' .asleep) (rest : Course e' r moves result) :
      Course e r ((e, e') :: moves) result
  | went {e e' : Engine} {r r' : LockRequest Purpose} {moves : List (Engine × Engine)}
      {result : Except Error Outcome} (h : Move e r e' (.next r')) (rest : Course e' r' moves result) :
      Course e r ((e, e') :: moves) result
  | meanwhile {e : Engine} {r : LockRequest Purpose} {moves : List (Engine × Engine)}
      {result : Except Error Outcome} (a : Act) (ha : a.Orderly e)
      (rest : Course (e.act a) r moves result) : Course e r moves result

/-- None of the moves changes rows, unless the last stores the row. -/
def KeepsRows (table : TableId) (row : List Field) (x : Error) (moves : List (Engine × Engine)) : Prop :=
  (∀ m ∈ moves, SameRows m.1 m.2) ∨
    ∃ earlier last, moves = earlier ++ [last] ∧ (∀ m ∈ earlier, SameRows m.1 m.2) ∧
      Stranded table row x last.1 last.2

theorem KeepsRows.cons {table : TableId} {row : List Field} {x : Error} {moves : List (Engine × Engine)}
    (h : KeepsRows table row x moves) (hs : SameRows e e') :
    KeepsRows table row x ((e, e') :: moves) := by
  rcases h with h | ⟨earlier, last, rfl, h, hlast⟩
  · exact .inl (List.forall_mem_cons.2 ⟨hs, h⟩)
  · exact .inr ⟨(e, e') :: earlier, last, rfl, List.forall_mem_cons.2 ⟨hs, h⟩, hlast⟩

theorem Course.rows {moves : List (Engine × Engine)} {result : Except Error Outcome}
    (h : Course e r moves result) (hw : Waiting job e r) {x : Error} (hx : result = .error x) :
    KeepsRows job.file.id job.tuple.fields x moves := by
  induction h with
  | @ended e e' r result h =>
    subst hx
    rcases h.rows hw.backed hw.proper hw.inserts with hs | ⟨_, ho⟩ | ⟨y, hy, hs⟩
    · exact .inl (by simpa using hs)
    · cases ho
    · cases hy
      exact .inr ⟨[], (e, e'), rfl, by simp, hs⟩
  | slept h _ ih =>
    refine (ih (hw.slept h) hx).cons ?_
    rcases h.rows hw.backed hw.proper hw.inserts with hs | ⟨_, ho⟩ | ⟨_, hy, -⟩
    · exact hs
    · cases ho
    · cases hy
  | went h _ ih =>
    refine (ih (hw.went h) hx).cons ?_
    rcases h.rows hw.backed hw.proper hw.inserts with hs | ⟨_, ho⟩ | ⟨_, hy, -⟩
    · exact hs
    · cases ho
    · cases hy
  | meanwhile a ha _ ih => exact ih (hw.act ha) hx

/-- A call that puts a row into a table: it is over at once, or its first request takes its course. -/
inductive Called (e : Engine) (t : TxnId) (table : TableId) (tuple : Tuple) :
    List (Engine × Engine) → Except Error Outcome → Prop
  | atOnce {result : Except Error Outcome}
      (h : progressOf t (e.begin (.insert table tuple)) = .done result) : Called e t table tuple [] result
  | waited {r : LockRequest Purpose} {moves : List (Engine × Engine)} {result : Except Error Outcome}
      (h : progressOf t (e.begin (.insert table tuple)) = .next r) (course : Course e r moves result) :
      Called e t table tuple moves result

theorem waiting_begin (hb : Backed e) {table : TableId} {tuple : Tuple} (ht : tuple.Sound)
    (h : progressOf t (e.begin (.insert table tuple)) = .next r) :
    ∃ f : HeapFile, f.id = table ∧ Waiting ⟨f, tuple, true⟩ e r := by
  cases hbegin : e.begin (.insert table tuple) with
  | done result =>
    rw [hbegin] at h
    cases h
  | ask p mode purpose =>
    rw [hbegin] at h
    cases h
    have hproper := proper_begin hb.catalog (t := t)
      (by simp [Operation.isProper, ht.types, ht.fits]) hbegin
    unfold begin at hbegin
    dsimp only at hbegin
    split at hbegin
    · cases hbegin
    · next m hm =>
      refine ⟨m.file, hb.catalog.id _ _ (Catalog.lookup_eq_ok.1 hm), hb, hproper, ?_⟩
      unfold HeapFile.beginInsert at hbegin
      split at hbegin
      · split at hbegin
        · cases hbegin
        · exact inserts_nextPlace (t := t) (by rw [hbegin]; rfl)
      · cases hbegin

theorem Called.rows {table : TableId} {tuple : Tuple} {moves : List (Engine × Engine)} {x : Error}
    (h : Called e t table tuple moves (.error x)) (hb : Backed e) (ht : tuple.Sound) :
    KeepsRows table tuple.fields x moves := by
  cases h with
  | atOnce => exact .inl (by simp)
  | waited h course =>
    obtain ⟨f, rfl, hw⟩ := waiting_begin hb ht h
    exact course.rows hw rfl

/-! ## Calls that nobody disturbs -/

/-- Each move begins where the one before it ended. -/
def Joined : Engine → List (Engine × Engine) → Engine → Prop
  | e, [], e' => e = e'
  | e, (before, after) :: moves, e' => before = e ∧ Joined after moves e'

theorem turnAlone_cases {ticket : Ticket} {which : Turn} {progress : Progress}
    (h : e.turnAlone ticket r which = (e', progress)) :
    e.turn ticket r which = (e', progress) ∨
      ∃ e1, e.turn ticket r which = (e1, .asleep) ∧ e1.turn ticket r .last = (e', progress) := by
  unfold turnAlone at h
  split at h
  · next e1 h1 =>
    split at h
    · exact .inr ⟨e1, h1, h⟩
    · exact .inl (h1.trans h)
  · exact .inl h

/-- What an operation that nobody disturbs goes through is put together of its turns. -/
theorem joined_settle {result : Except Error Outcome}
    {motive : Engine → LockRequest Purpose → List (Engine × Engine) → Prop}
    (ended : ∀ {e e' : Engine} {r : LockRequest Purpose} {ticket : Ticket} {which : Turn},
      e.turn ticket r which = (e', .done result) → motive e r [(e, e')])
    (slept : ∀ {e e' : Engine} {r : LockRequest Purpose} {ticket : Ticket} {which : Turn}
      {moves : List (Engine × Engine)}, e.turn ticket r which = (e', .asleep) →
      motive e' r moves → motive e r ((e, e') :: moves))
    (went : ∀ {e e' : Engine} {r r' : LockRequest Purpose} {ticket : Ticket} {which : Turn}
      {moves : List (Engine × Engine)}, e.turn ticket r which = (e', .next r') →
      motive e' r' moves → motive e r ((e, e') :: moves))
    {ticket : Ticket} {which : Turn} (h : e.settle ticket r which = (e', .done result)) :
    ∃ moves, motive e r moves ∧ Joined e moves e' := by
  fun_induction settle e ticket r which with
  | case1 e r which e1 result' h1 =>
    cases h
    rcases turnAlone_cases h1 with ht | ⟨e2, h2, ht⟩
    · exact ⟨_, ended ht, rfl, rfl⟩
    · exact ⟨_, slept h2 (ended ht), rfl, rfl, rfl⟩
  | case2 => cases h
  | case3 e r which e1 r' h1 ih =>
    obtain ⟨moves, hrest, hjoined⟩ := ih h
    rcases turnAlone_cases h1 with ht | ⟨e2, h2, ht⟩
    · exact ⟨_, went ht hrest, rfl, hjoined⟩
    · exact ⟨_, slept h2 (went ht hrest), rfl, rfl, hjoined⟩

theorem course_settle {ticket : Ticket} {which : Turn} {result : Except Error Outcome}
    (h : e.settle ticket r which = (e', .done result)) :
    ∃ moves, Course e r moves result ∧ Joined e moves e' :=
  joined_settle (motive := (Course · · · result)) (fun ht => .ended (.turn ht))
    (fun ht => .slept (.turn ht)) (fun ht => .went (.turn ht)) h

theorem called_perform {ticket : Ticket} {table : TableId} {tuple : Tuple}
    {result : Except Error Outcome}
    (h : e.perform ticket t (.insert table tuple) = (e', .done result)) :
    ∃ moves, Called e t table tuple moves result ∧ Joined e moves e' := by
  unfold perform at h
  split at h
  · next hbegin =>
    cases h
    exact ⟨[], .atOnce hbegin, rfl⟩
  · cases h
  · next r hbegin =>
    obtain ⟨moves, hcourse, hjoined⟩ := course_settle h
    exact ⟨moves, .waited hbegin hcourse, hjoined⟩

/-! ## Failed inserts -/

/-- If an insert fails, whatever the state and whatever others do between its turns, none of
its turns changes any row that can be seen or that is stored; or the table stores new pages
with their row, nothing could be evicted for the new page or its write broke off, and all that
the last turn did is that the row stands in the first slot of that page. After a turn
that changed no row, an abort leaves stored rows as they were before the turn. -/
theorem failed_insert_keeps_rows {store : Store} (hs : store.catalog.Sound) {capacity : Nat}
    {policy : DeadlockPolicy} {pool : Pool} (hp : Pool.new capacity policy = .ok pool)
    (he : Operated ⟨store, pool⟩ e) {table : TableId} {tuple : Tuple} (ht : tuple.Sound)
    {moves : List (Engine × Engine)} {x : Error} (h : Called e t table tuple moves (.error x)) :
    KeepsRows table tuple.fields x moves ∧
      ∀ m ∈ moves, SameRows m.1 m.2 →
        ∀ u r, (m.2.abort u).engine.store.storedRow? r = m.1.store.storedRow? r := by
  have hb := backed_of_operated (backed_new hs hp) he
  refine ⟨h.rows hb ht, fun m _ hsame u r => ?_⟩
  rw [abort, store_dropChanges]
  exact hsame.stored r

/-- Inserts that fail change no row. -/
def FailCleanly (start : Engine) : Prop :=
  ∀ {e : Engine} {t : TxnId} {table : TableId} {tuple : Tuple} {moves : List (Engine × Engine)}
    {x : Error}, Operated start e → tuple.Sound → Called e t table tuple moves (.error x) →
    ∀ m ∈ moves, SameRows m.1 m.2

/-! ## A table of one row per page -/

/-- A table of numbers whose pages hold one row each. -/
def slimFile (table : Nat) (append : AppendPolicy) : HeapFile :=
  ⟨.numbered table, "rows", .ofTypes [.int], 9, append⟩

def slimStore (append : AppendPolicy) : Store :=
  ⟨(∅ : Volume).insert "rows" SparseFile.empty,
    (∅ : Catalog).insert (.numbered 1) ⟨slimFile 1 append, .none⟩⟩

theorem sound_slimStore (append : AppendPolicy) : (slimStore append).catalog.Sound := by
  have hf : HeapFile.make (.numbered 1) "rows" (.ofTypes [.int]) 9 append = .ok (slimFile 1 append) :=
    rfl
  have hr : Catalog.register ∅ ⟨slimFile 1 append, .none⟩ = .ok (slimStore append).catalog := by
    unfold Catalog.register
    rw [Std.TreeMap.contains_emptyc]
    rfl
  refine Catalog.sound_register Catalog.sound_empty hf ?_ hr
  intro t m h
  simp at h

def slimPool : Pool := { World.samplePool with capacity := 1 }

/-- The request to put a row on a page of a slim table, or to append it. -/
def slimRequest (f : HeapFile) (t : TxnId) (n : Int32) (index : Nat) (limit : Option Nat) :
    LockRequest Purpose :=
  let job : Placement := ⟨f, World.sampleRow n, true⟩
  ⟨t, ⟨f.id, index⟩, .exclusive, limit.elim (.append job) (.place job)⟩

/-- The first row was appended; its page fills the cache, and is dirty. -/
def slimEngine (append : AppendPolicy) : Engine :=
  act ⟨slimStore append, slimPool⟩ (.turn 1 (slimRequest (slimFile 1 append) 1 5 0 none) .first)

/-- The engine after a first turn. -/
def turned (e : Engine) (r : LockRequest Purpose) : Engine := (e.turn r.txn r .first).1

theorem move_turned {progress : Progress} (h : (e.turn r.txn r .first).2 = progress) :
    Move e r (e.turned r) progress :=
  .turn (Prod.ext rfl h)

deriving instance DecidableEq for Progress

/-- The second row needs a page of its own, which finds no room in the cache. -/
theorem called_slimEngine (append : AppendPolicy) :
    let e := slimEngine append
    let r := slimRequest (slimFile 1 append) 1 6 0 (some 1)
    let r1 := slimRequest (slimFile 1 append) 1 6 1 none
    Called e 1 (.numbered 1) (World.sampleRow 6) [(e, e.turned r), (e.turned r, (e.turned r).turned r1)]
      (.error (.noEvictablePage 1)) := by
  intro e r r1
  have hbegin : progressOf 1 (e.begin (.insert (.numbered 1) (World.sampleRow 6))) = .next r := by
    cases append <;> decide +kernel
  have hpassed : (e.turn r.txn r .first).2 = .next r1 := by
    cases append <;> decide +kernel
  have hfailed : ((e.turned r).turn r1.txn r1 .first).2 = .done (.error (.noEvictablePage 1)) := by
    cases append <;> decide +kernel
  exact .waited hbegin (.went (move_turned hpassed) (.ended (move_turned hfailed)))

theorem sound_sampleRow (n : Int32) : (World.sampleRow n).Sound := ⟨rfl, rfl⟩

theorem operated_slimEngine (append : AppendPolicy) :
    Operated ⟨slimStore append, slimPool⟩ (slimEngine append) := by
  refine Operated.start.act (.turn 1 (slimRequest (slimFile 1 append) 1 5 0 none) .first) ?_
  refine ⟨⟨?_, sound_sampleRow 5, rfl, rfl⟩, rfl, rfl⟩
  cases append <;> decide +kernel

theorem failed_insert_keeps_rows_slimEngine :
    let e := slimEngine .extendEmpty
    let r := slimRequest (slimFile 1 .extendEmpty) 1 6 0 (some 1)
    let r1 := slimRequest (slimFile 1 .extendEmpty) 1 6 1 none
    let moves := [(e, e.turned r), (e.turned r, (e.turned r).turned r1)]
    (slimStore .extendEmpty).catalog.Sound ∧ Pool.new 1 .cycleDetection = .ok slimPool ∧
      Operated ⟨slimStore .extendEmpty, slimPool⟩ e ∧ (World.sampleRow 6).Sound ∧
      Called e 1 (.numbered 1) (World.sampleRow 6) moves (.error (.noEvictablePage 1)) ∧
      KeepsRows (.numbered 1) [.int 6] (.noEvictablePage 1) moves :=
  ⟨sound_slimStore _, rfl, operated_slimEngine _, sound_sampleRow 6, called_slimEngine _,
    (failed_insert_keeps_rows (sound_slimStore _)
      (show Pool.new 1 .cycleDetection = .ok slimPool from rfl) (operated_slimEngine _)
      (sound_sampleRow 6) (called_slimEngine _)).1⟩

/-! ## Two tables in one file -/

/-- A file of one page, which is full, for two tables. -/
def twinStore : Store :=
  ⟨(∅ : Volume).insert "rows" (SparseFile.empty.write 0 [0, 0, 0, 0, 1, 0, 0, 0, 5]),
    ((∅ : Catalog).insert (.numbered 1) ⟨slimFile 1 .extendEmpty, .none⟩).insert (.numbered 2)
      ⟨slimFile 2 .extendEmpty, .none⟩⟩

theorem mount_twinStore {table : TableId} {m : Mount} (h : twinStore.catalog[table]? = some m) :
    (table = .numbered 1 ∧ m = ⟨slimFile 1 .extendEmpty, .none⟩) ∨
      (table = .numbered 2 ∧ m = ⟨slimFile 2 .extendEmpty, .none⟩) := by
  unfold twinStore at h
  rw [Std.TreeMap.getElem?_insert, Std.TreeMap.getElem?_insert] at h
  split at h
  · next ht =>
    cases h
    exact .inr ⟨(Std.LawfulEqCmp.compare_eq_iff_eq.1 ht).symm, rfl⟩
  · split at h
    · next ht =>
      cases h
      exact .inl ⟨(Std.LawfulEqCmp.compare_eq_iff_eq.1 ht).symm, rfl⟩
    · simp at h

theorem pages_twinStore {table : TableId} {file : HeapFile} (h : twinStore.file? table = some file) :
    0 < twinStore.pages table := by
  obtain ⟨m, hm, rfl⟩ := Option.map_eq_some_iff.1 h
  rw [Store.pages_of_mount hm]
  rcases mount_twinStore hm with ⟨-, rfl⟩ | ⟨-, rfl⟩ <;> decide +kernel

/-- A file of three pages with a row each, which two tables share. One of them cannot read
its last page. -/
def sharedStore : Store :=
  let page : List UInt8 := [0, 0, 0, 0, 1, 0, 0, 0, 5]
  ⟨(∅ : Volume).insert "rows" (SparseFile.empty.write 0 (page ++ page ++ page)),
    ((∅ : Catalog).insert (.numbered 1) ⟨slimFile 1 .extendEmpty, .none⟩).insert (.numbered 2)
      ⟨slimFile 2 .extendEmpty, ⟨false, [2]⟩⟩⟩

theorem append_sharedStore {table : TableId} {f : HeapFile} (h : sharedStore.file? table = some f) :
    f.append = .extendEmpty := by
  obtain ⟨m, hm, rfl⟩ := Option.map_eq_some_iff.1 h
  unfold sharedStore at hm
  rw [Std.TreeMap.getElem?_insert, Std.TreeMap.getElem?_insert] at hm
  split at hm
  · cases hm
    rfl
  · split at hm
    · cases hm
      rfl
    · simp at hm

/-- The first page is read as one of the first table; then the second table puts another row
in the place of its row, and that is stored. What is cached of the first table is out of date. -/
def sharedEngine : Engine :=
  let first := act ⟨sharedStore, World.samplePool⟩
    (.turn 1 ⟨1, ⟨.numbered 1, 0⟩, .shared, .fetch⟩ .first)
  let second := (first.act
    (.turn 2 ⟨2, ⟨.numbered 2, 0⟩, .exclusive, .remove ⟨⟨.numbered 2, 0⟩, 0⟩⟩ .first))
  (second.act (.turn 2 (slimRequest (slimFile 2 .extendEmpty) 2 7 0 (some 3)) .first)).act (.keep 2)

theorem operated_sharedEngine : Operated ⟨sharedStore, World.samplePool⟩ sharedEngine := by
  unfold sharedEngine
  refine (((Operated.start.act _ ?_).act _ ?_).act _ ?_).act _ ?_
  · trivial
  · exact ⟨rfl, rfl⟩
  · exact ⟨⟨by decide +kernel, sound_sampleRow 7, rfl, rfl⟩, rfl, rfl⟩
  · trivial

/-- An insert into the second table passes two pages, the second of which takes the place of
the page of the first table, and cannot read the third. -/
theorem called_sharedEngine :
    let place := fun index => slimRequest (slimFile 2 .extendEmpty) 3 8 index (some 3)
    let e := sharedEngine
    let e1 := e.turned (place 0)
    let e2 := e1.turned (place 1)
    Called e 3 (.numbered 2) (World.sampleRow 8) [(e, e1), (e1, e2), (e2, e2.turned (place 2))]
      (.error (.io .unreadable)) := by
  intro place e e1 e2
  have hbegin : progressOf 3 (e.begin (.insert (.numbered 2) (World.sampleRow 8))) = .next (place 0) := by
    decide +kernel
  have hfirst : (e.turn (place 0).txn (place 0) .first).2 = .next (place 1) := by decide +kernel
  have hsecond : (e1.turn (place 1).txn (place 1) .first).2 = .next (place 2) := by decide +kernel
  have hfailed : (e2.turn (place 2).txn (place 2) .first).2 = .done (.error (.io .unreadable)) := by
    decide +kernel
  exact .waited hbegin (.went (move_turned hfirst) (.went (move_turned hsecond)
    (.ended (move_turned hfailed))))

/-- An insert that fails may leave its row in storage if its table stores new pages with
their row. It may change what is seen of another table if tables share a file. -/
theorem exists_failed_insert_seen :
    (∃ start : Engine, Pool.new 1 .cycleDetection = .ok start.pool ∧ start.store.catalog.Sound ∧
      ¬FailCleanly start) ∧
    ∃ start : Engine, Pool.new 2 .cycleDetection = .ok start.pool ∧
      (∀ table f, start.store.file? table = some f → f.append = .extendEmpty) ∧ ¬FailCleanly start := by
  refine ⟨⟨⟨slimStore .writeThrough, slimPool⟩, rfl, sound_slimStore _, fun h => ?_⟩,
    ⟨sharedStore, World.samplePool⟩, rfl, fun table f hf => ?_, fun h => ?_⟩
  · have hsame := h (operated_slimEngine _) (sound_sampleRow 6) (called_slimEngine _) _
      (List.mem_cons_of_mem _ (List.mem_singleton.2 rfl))
    exact absurd (hsame.stored ⟨⟨.numbered 1, 1⟩, 0⟩) (by decide +kernel)
  · exact append_sharedStore hf
  · have hsame := h operated_sharedEngine (sound_sampleRow 8) called_sharedEngine _
      (List.mem_cons_of_mem _ (List.mem_cons_self))
    exact absurd (hsame.visible ⟨⟨.numbered 1, 0⟩, 0⟩) (by decide +kernel)

end PageStore.Engine
