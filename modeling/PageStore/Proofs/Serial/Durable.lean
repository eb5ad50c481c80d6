import PageStore.Proofs.Serial.Replay

/-!
# Storage holds what was committed, and nothing else

The bytes at the place of a page change in two ways only: an append puts an
empty page after the last one, and a commit puts there what its transaction
made of the page. So whoever opens the storage with a new pool, at any moment of
any run, finds the rows of the transactions that have committed by then.

Results:
* `bytes_step`: what can become of stored bytes in one step.
* `Alone.fetch`: what a reader finds whom nobody disturbs.
* `storage_holds_committed`: stored bytes, commits, and new pools, in every
  reachable world.
* `exists_stored_astray`: where tables share a file, a commit may change a page that its
  transaction has left alone.
-/
namespace PageStore

namespace Store

variable {s : Store} {p : PageId}

/-- The bytes at the place of a page are those of `page`. -/
def Holds (s : Store) (p : PageId) (page : Page) : Prop :=
  ∃ bytes, page.encode = .ok bytes ∧ s.bytes? p = some bytes

theorem holds_of_bytes {page : Page} (hc : s.catalog.Sound) (hs : page.Sound) (hf : s.Fits page)
    (h : s.bytes? p = some page.image) : s.Holds p page := by
  obtain ⟨m, hm, -, hsize⟩ := hf
  exact ⟨_, page.encode_eq hs (by rw [hsize]; exact Nat.le_of_lt (hc.checksumWidth_lt hm)), h⟩

end Store

namespace Engine

variable {e e' : Engine} {t : TxnId} {p : PageId}

/-- A granted request stores nothing, or an empty page after the last one of its table. -/
theorem served_bytes (hc : Coherent e) (ho : e.store.Orderly) {mode : LockMode} {purpose : Purpose}
    {a : Advance} (hr : LockRequest.Proper ⟨t, p, mode, purpose⟩ e.store)
    (h : Served e t p purpose e' a) (q : PageId) :
    e'.store.bytes? q = e.store.bytes? q ∨
      (p = q ∧ (∃ job, purpose = .append job) ∧ e.store.bytes? q = none ∧
        ∃ m, e.store.catalog[q.table]? = some m ∧
          e'.store.Holds q (Page.empty q m.file.layout m.file.pageSize)) := by
  have stowed : ∀ {job : Placement} {m : Mount} (filled : Page), purpose = .append job →
      e.store.catalog[p.table]? = some m → p.index = e.store.pages p.table →
      (e.stow m (firstImage m.file p filled)).store.bytes? q = e.store.bytes? q ∨
        (p = q ∧ (∃ job, purpose = .append job) ∧ e.store.bytes? q = none ∧
          ∃ m', e.store.catalog[q.table]? = some m' ∧
            (e.stow m (firstImage m.file p filled)).store.Holds q
              (Page.empty q m'.file.layout m'.file.pageSize)) := by
    intro job m filled hj hm hi
    have hblank : firstImage m.file p filled = Page.empty p m.file.layout m.file.pageSize := by
      rw [firstImage, ho.append _ m hm]
    have hsound := Page.sound_empty p m.file.layout m.file.pageSize
    have hput := Store.bytes?_put hc.catalog hm hsound rfl (Nat.le_of_eq hi) q
    rw [hblank]
    by_cases hq : q = p
    · subst hq
      refine .inr ⟨rfl, ⟨job, hj⟩, Store.bytes?_eq_none hc.catalog (Nat.le_of_eq hi.symm), m, hm, ?_⟩
      exact Store.holds_of_bytes hc.catalog hsound ⟨m, hm, rfl, rfl⟩ (hput.trans (if_pos rfl))
    · exact .inl (hput.trans (if_neg hq))
  cases h with
  | held => exact .inl rfl
  | failed h => rw [h.store]; exact .inl rfl
  | fetched h => rw [h.store]; exact .inl rfl
  | passed h => rw [h.store]; exact .inl rfl
  | overtaken => exact .inl rfl
  | changed h ht hp hd hn => rw [hn.store, h.store]; exact .inl rfl
  | stranded hm hj hi hf => exact stowed _ rfl hm hi
  | appended hm hj hi hx hf hn =>
    rw [hn.store]
    exact stowed _ rfl hm hi

/-- A commit stores the pages that its transaction dirtied, as they are in the
cache, and no others. -/
theorem keepChanges_bytes (hc : Coherent e) (t : TxnId) (p : PageId) :
    (e.keepChanges t).engine.store.bytes? p = e.store.bytes? p ∨
      ∃ page, e.pool.page? p = some page ∧ page.dirtier = some t ∧
        (e.keepChanges t).engine.store.Holds p page := by
  obtain ⟨e1, locks, hf, hunmoved, he⟩ := keepChanges_flushed hc t
  rw [he, store_withLocks]
  by_cases hp : p ∈ e.pool.dirtyPages (· == t)
  · rcases hf.page p with hu | ⟨page, hw⟩
    · exact .inl hu.bytes
    · obtain ⟨page', u, hpage, hd, hu⟩ := Pool.mem_dirtyPages.1 hp
      obtain rfl : page = page' := Option.some.inj (hw.before.symm.trans hpage)
      obtain rfl : u = t := by simpa using hu
      obtain ⟨-, hsound, m, hm, hfits⟩ := hc.page p page hpage
      refine .inr ⟨page, hpage, hd, Store.holds_of_bytes ?_ hsound ?_ hw.bytes⟩
      · rw [hf.catalog]
        exact hc.catalog
      · exact ⟨m, by rw [hf.catalog]; exact hm, hfits⟩
  · exact .inl (hunmoved p hp).bytes

/-- A commit that succeeds stores every page that its transaction dirtied. -/
theorem holds_of_dirty (hc : Coherent e) (hok : (e.keepChanges t).result = .ok ()) {page : Page}
    (hp : e.pool.page? p = some page) (hd : page.dirtier = some t) :
    (e.keepChanges t).engine.store.Holds p page := by
  obtain ⟨e1, hf, -, hspot, he⟩ := keepChanges_of_ok hc hok
  rcases hf.page p with hu | ⟨page', hw⟩
  · exact absurd hd (hspot p page (hu.cached.trans hp))
  · obtain rfl : page' = page := Option.some.inj (hw.before.symm.trans hp)
    obtain ⟨-, hsound, m, hm, hfits⟩ := hc.page p page' hp
    rw [he]
    refine Store.holds_of_bytes ?_ hsound ⟨m, ?_, hfits⟩ hw.bytes
    · exact hf.catalog ▸ hc.catalog
    · exact hf.catalog ▸ hm

/-! ## Readers -/

/-- An undisturbed fetch finds the visible page, and changes nothing that anybody sees. -/
theorem Alone.fetch (h : Alone e t ∅) (hcap : e.pool.capacity ≠ 0) (p : PageId) :
    let r := e.perform 0 t (.fetch p .shared)
    Alone r.1 t ∅ ∧ r.1.pool.capacity = e.pool.capacity ∧ r.1.tables = e.tables ∧
      match e.visible? p with
      | some page => ∃ handle, r.2 = .done (.ok (.fetched handle page))
      | none => ∃ x, r.2 = .done (.error x) := by
  obtain ⟨hgranted, h1⟩ := h.granted 0 p .shared .fetch
  have hroom : (insert p (∅ : Finset PageId)).card ≤ e.pool.capacity := by
    rw [Finset.card_insert_of_notMem (Finset.notMem_empty p), Finset.card_empty]
    omega
  obtain ⟨e1, he1⟩ : ∃ e1, e1 = e.withLocks (e.pool.locks.request 0 ⟨t, p, .shared, .fetch⟩ .first).1 :=
    ⟨_, rfl⟩
  have hvisible : e1.visible? p = e.visible? p := by
    rw [he1]
    rfl
  rw [← he1] at h1
  rcases hl : e1.load p with ⟨e', loaded⟩
  have hturn := load_turnover hl
  have htidy := tidy_load h1.coherent.tidy p
  rw [hl] at htidy
  obtain ⟨halone, htables⟩ := h1.turnover hturn htidy
  have hperform : ∀ {result : Except Error Outcome}, e1.serveFetch p = (e', .done result) →
      e.perform 0 t (.fetch p .shared) = (e', .done result) := fun hs =>
    settle_done hgranted (by rw [← he1]; exact hs)
  suffices hrest : (e.perform 0 t (.fetch p .shared)).1 = e' ∧
      match e.visible? p with
      | some page => ∃ handle, (e.perform 0 t (.fetch p .shared)).2 = .done (.ok (.fetched handle page))
      | none => ∃ x, (e.perform 0 t (.fetch p .shared)).2 = .done (.error x) by
    intro r
    rw [show r.1 = e' from hrest.1]
    exact ⟨halone, hturn.rules.capacity.trans (by rw [he1]; rfl), htables.trans (by rw [he1]; rfl),
      hrest.2⟩
  cases loaded with
  | error x =>
    rw [hperform (by rw [serveFetch, hl])]
    refine ⟨rfl, ?_⟩
    split
    · next page hv =>
      obtain ⟨e2, f, hl', -⟩ := h1.load (hvisible.trans hv) (by rw [he1]; exact hroom)
      rw [hl] at hl'
      cases hl'
    · exact ⟨x, rfl⟩
  | ok f =>
    rw [hperform (by rw [serveFetch, hl]), hvisible.symm.trans (load_eq_ok hl).2]
    exact ⟨rfl, _, rfl⟩

/-- The row that `t` finds in a slot if it fetches the page. -/
def finds? (e : Engine) (t : TxnId) (p : PageId) (slot : Nat) : Option (List Field) :=
  match (e.perform 0 t (.fetch p .shared)).2 with
  | .done (.ok (.fetched _ page)) => (page.row? slot).map Tuple.fields
  | _ => none

/-- The engine after fetches by `t`. -/
def afterFetches (e : Engine) (t : TxnId) (ps : List PageId) : Engine :=
  ps.foldl (fun e p => (e.perform 0 t (.fetch p .shared)).1) e

theorem Alone.finds (h : Alone e t ∅) (hcap : e.pool.capacity ≠ 0) (p : PageId) (slot : Nat) :
    e.finds? t p slot = e.tables.row? p slot := by
  obtain ⟨-, -, -, hrest⟩ := h.fetch hcap p
  have hrow : e.tables.row? p slot = (e.visible? p).bind fun page => page.grid[slot]?.join := by
    change (e.content? p).bind _ = _
    rw [content?, Option.bind_map]
    rfl
  rw [hrow, finds?]
  split at hrest
  · next page hv =>
    obtain ⟨handle, hr⟩ := hrest
    rw [hr, hv]
    exact Page.fields_row page slot
  · next hv =>
    obtain ⟨x, hr⟩ := hrest
    rw [hr, hv]
    rfl

theorem Alone.afterFetches (h : Alone e t ∅) (hcap : e.pool.capacity ≠ 0) (ps : List PageId) :
    Alone (e.afterFetches t ps) t ∅ ∧ (e.afterFetches t ps).pool.capacity = e.pool.capacity ∧
      (e.afterFetches t ps).tables = e.tables := by
  induction ps generalizing e with
  | nil => exact ⟨h, rfl, rfl⟩
  | cons p ps ih =>
    obtain ⟨h1, hcap1, htables, -⟩ := h.fetch hcap p
    obtain ⟨h2, hcap2, htables2⟩ := ih h1 (by rw [hcap1]; exact hcap)
    exact ⟨h2, hcap2.trans hcap1, htables2.trans htables⟩

end Engine

/-- Orderly events after which storage still does not fail. -/
def Event.isReliable : Event → Bool
  | .fail .. => false
  | event => event.isOrderly

theorem Event.isOrderly_of_isReliable {event : Event} (h : event.isReliable = true) :
    event.isOrderly = true := by
  cases event <;> first | exact h | cases h

namespace World

variable {w w' : World} {t : TxnId} {a : Activity}

/-! ## Stored bytes -/

/-- What an event may do to the bytes at the place of a page. -/
def Stored (w : World) (event : Event) (w' : World) (p : PageId) : Prop :=
  w'.engine.store.bytes? p = w.engine.store.bytes? p ∨
  (∃ t which a job m, event = .turn t which ∧ w.active[t]? = some a ∧ a.request.page = p ∧
    a.request.purpose = .append job ∧ w.engine.store.bytes? p = none ∧
    w.engine.store.catalog[p.table]? = some m ∧
    w'.engine.store.Holds p (Page.empty p m.file.layout m.file.pageSize)) ∨
  ∃ t page, event = .keep t ∧ (w.engine.keepChanges t).result = .ok () ∧
    w.engine.pool.page? p = some page ∧ page.dirtier = some t ∧ w'.engine.store.Holds p page

theorem bytes_turn (hw : w.Accounted) (ha : w.active[t]? = some a) (which : Turn) (p : PageId) :
    Stored w (.turn t which) (w.turned t a (w.engine.turn a.ticket a.request which).1
      (w.engine.turn a.ticket a.request which).2) p := by
  have hcg : (w.granted a which).Coherent := hw.coherent.engine.request a.ticket a.request which
  have hproper : LockRequest.Proper ⟨t, a.request.page, a.request.mode, a.request.purpose⟩
    (w.granted a which).store := (hw.coherent.active t a ha).2
  rw [Stored, engine_turned]
  rcases turn_served hw.coherent ha which with ⟨advance, -, -, hserved⟩ | ⟨-, -, hturn⟩
  · rcases Engine.served_bytes hcg hw.orderly hproper hserved p with h | ⟨rfl, ⟨job, hj⟩, hn, m, hm, h⟩
    · exact .inl h
    · exact .inr (.inl ⟨t, which, a, job, m, rfl, ha, rfl, hj, hn, hm, h⟩)
  · exact .inl (congrArg (·.bytes? p) hturn.store)

/-- Stored bytes change where an empty page is appended, or where a transaction
commits a page that it dirtied. -/
theorem bytes_step (hw : w.Accounted) {event : Event} (ha : event.isOrderly = true)
    (hs : w.step event = some w') (p : PageId) : Stored w event w' p := by
  cases happens hs with
  | idle => exact .inl rfl
  | begun => exact .inl rfl
  | turned hact => exact bytes_turn hw hact _ p
  | @kept t hidle hok =>
    rcases Engine.keepChanges_bytes hw.coherent.engine t p with h | ⟨page, hp, hd, h⟩
    · exact .inl h
    · exact .inr (.inr ⟨t, page, rfl, hok, hp, hd, h⟩)
  | @broken t x hx =>
    rw [hw.keeps t] at hx
    cases hx
  | @dropped t =>
    exact .inl (congrArg (·.bytes? p) (Engine.store_dropChanges _ t))
  | flushed ps he => exact absurd ha (Event.not_isOrderly_of_isFlush he)
  | discarded => cases ha
  | @failing table faults =>
    exact .inl ((Store.sameFiles_withFaults w.engine.store table faults).bytes p)
  | latching => exact .inl rfl

theorem reliable_step (hw : w.Coherent) (hr : w.engine.store.Reliable) {event : Event}
    (ha : event.isReliable = true) (hs : w.step event = some w') : w'.engine.store.Reliable := by
  cases happens hs with
  | idle => exact hr
  | begun => exact hr
  | turned hact =>
    rw [engine_turned]
    rcases turn_served hw hact _ with ⟨advance, -, -, hserved⟩ | ⟨-, -, hturn⟩
    · exact hr.of_catalog hserved.catalog
    · exact hr.of_catalog (congrArg Store.catalog hturn.store)
  | kept => exact hr.of_catalog (Engine.catalog_keepChanges _ _)
  | broken => exact hr.of_catalog (Engine.catalog_keepChanges _ _)
  | dropped => exact hr.of_catalog (congrArg Store.catalog (Engine.store_dropChanges _ _))
  | flushed ps he =>
    exact absurd (Event.isOrderly_of_isReliable ha) (Event.not_isOrderly_of_isFlush he)
  | discarded => cases ha
  | failing => cases ha
  | latching => exact hr

theorem reliable_of_reachable {start : World} (h0 : start.Coherent) (hr : start.engine.store.Reliable)
    (h : Reachable (fun event => event.isReliable = true) start w) : w.engine.store.Reliable := by
  induction h with
  | start => exact hr
  | step event hw ha hs ih => exact reliable_step (coherent_of_reachable h0 hw) ih ha hs

/-- In every world that reliable events lead to from a new pool: stored bytes
change only where an append puts an empty page, or where a commit puts what its
transaction made of a page; a commit succeeds, and stores all that its
transaction changed; and a reader of any new pool over the storage, whatever it
has read before, finds the rows that the committed transactions make of the
first tables, one after another in the order of the commits. -/
theorem storage_holds_committed {store : Store} (hs : store.catalog.Sound) (hr : store.Reliable)
    {capacity : Nat} {policy : DeadlockPolicy} {pool : Pool}
    (hp : Pool.new capacity policy = .ok pool)
    (hw : Reachable (fun event => event.isReliable = true) (fresh store pool) w) :
    (∀ (event : Event) (w' : World) (p : PageId), event.isReliable = true →
      w.step event = some w' → Stored w event w' p) ∧
    (∀ (t : TxnId) (w' : World), w.step (.keep t) = some w' →
      (w.engine.keepChanges t).result = .ok () ∧
      committed w'.chronicle = committed w.chronicle ++ [(t, (pending t w.chronicle).reverse)] ∧
      ∀ (p : PageId) (page : Page), w.engine.pool.page? p = some page → page.dirtier = some t →
        w'.engine.store.Holds p page) ∧
    ∃ s, store.tables.execute? (committed w.chronicle) = some s ∧
      ∀ (capacity' : Nat) (policy' : DeadlockPolicy) (pool' : Pool),
        Pool.new capacity' policy' = .ok pool' → ∀ (t : TxnId) (earlier : List PageId) (p : PageId)
          (slot : Nat), (Engine.afterFetches ⟨w.engine.store, pool'⟩ t earlier).finds? t p slot =
            s.row? p slot := by
  have h0 := accounted_fresh hs hr.orderly hp
  have hworderly := hw.mono fun _ h => Event.isOrderly_of_isReliable h
  have hacc := accounted_of_reachable h0 hworderly
  obtain ⟨s, hexec, htrails⟩ := serial_of_reachable h0 rfl hworderly
  refine ⟨fun event w' p ha hstep => bytes_step hacc (Event.isOrderly_of_isReliable ha) hstep p,
    fun t w' hstep => ?_, s, hexec, fun capacity' policy' pool' hp' t earlier p slot => ?_⟩
  · cases happens hstep with
    | kept hidle hok =>
      refine ⟨hok, by rw [committed, if_pos rfl], fun p page hpage hd => ?_⟩
      exact Engine.holds_of_dirty hacc.coherent.engine hok hpage hd
    | broken hx =>
      rw [hacc.keeps t] at hx
      cases hx
    | flushed _ he => cases he
    | latching _ he => cases he
  · have hsound := hacc.coherent.engine.catalog
    have hreliable := reliable_of_reachable h0.coherent hr hw
    have hcap : (Engine.mk w.engine.store pool').pool.capacity ≠ 0 := by
      unfold Pool.new at hp'
      split at hp'
      · cases hp'
      · cases hp'
        assumption
    obtain ⟨halone, hcap', htables⟩ :=
      (Engine.alone_new hsound hreliable hp' t).afterFetches hcap earlier
    rw [halone.finds (by rw [hcap']; exact hcap), htables, Engine.tables_new _ hp']
    exact htrails.row (Store.sound_tables hsound) p slot

/-- The first transaction has committed a row, the second has put one beside it
and is still open: every new pool shows the first row only. -/
theorem sample_storage_holds_committed :
    ∃ w, (fresh sampleStore samplePool).run
        [.start 1 0 (.insert (.numbered 1) (sampleRow 5)), .turn 1 .first, .keep 1,
          .start 2 1 (.insert (.numbered 1) (sampleRow 6)), .turn 2 .first] = some w ∧
      (committed w.chronicle).map Prod.fst = [1] ∧
      w.engine.tables.row? (samplePage 0) 1 = some [.int 6] ∧
      ∀ (capacity : Nat) (policy : DeadlockPolicy) (pool : Pool), Pool.new capacity policy = .ok pool →
        ∀ t earlier, let e := Engine.afterFetches ⟨w.engine.store, pool⟩ t earlier
          e.finds? t (samplePage 0) 0 = some [.int 5] ∧ e.finds? t (samplePage 0) 1 = none := by
  have hrun : (((fresh sampleStore samplePool).run
      [.start 1 0 (.insert (.numbered 1) (sampleRow 5)), .turn 1 .first, .keep 1,
        .start 2 1 (.insert (.numbered 1) (sampleRow 6)), .turn 2 .first]).map fun w =>
      ((committed w.chronicle).map Prod.fst, w.engine.tables.row? (samplePage 0) 1,
        (sampleStore.tables.execute? (committed w.chronicle)).map fun s =>
          [s.row? (samplePage 0) 0, s.row? (samplePage 0) 1])) =
      some ([1], some [.int 6], some [some [.int 5], none]) := by decide +kernel
  obtain ⟨w, hw, h⟩ := Option.map_eq_some_iff.1 hrun
  obtain ⟨hcommitted, h⟩ := Prod.mk.inj h
  obtain ⟨hopen, h⟩ := Prod.mk.inj h
  have hreach : Reachable (fun event => event.isReliable = true) (fresh sampleStore samplePool) w :=
    reachable_of_run _ .start (by decide) hw
  obtain ⟨-, -, s, hs, hfinds⟩ := storage_holds_committed sound_sampleStore reliable_sampleStore
    (show Pool.new 2 .cycleDetection = .ok samplePool from rfl) hreach
  rw [hs] at h
  obtain ⟨h0, h1⟩ := List.cons.inj (Option.some.inj h)
  refine ⟨w, hw, hcommitted, hopen, fun capacity policy pool hp t earlier => ⟨?_, ?_⟩⟩
  · rw [hfinds capacity policy pool hp, h0]
  · rw [hfinds capacity policy pool hp, (List.cons.inj h1).1]

/-! ## Two tables in one file -/

/-- Stored bytes change only where an append puts an empty page, or where a commit puts what its
transaction made of a page. -/
def StoresCommitted (start : World) : Prop :=
  ∀ {w w' : World} {event : Event} {p : PageId},
    Reachable (fun event => event.isReliable = true) start w → event.isReliable = true →
    w.step event = some w' → Stored w event w' p

/-- A transaction deletes the row of the second table. With its commit the row of the first table
is gone from storage as well, though nobody has touched that table. -/
theorem exists_stored_astray :
    ∃ start : World, Pool.new 2 .cycleDetection = .ok start.engine.pool ∧
      start.engine.store.Reliable ∧ ¬StoresCommitted start := by
  refine ⟨fresh Engine.twinStore samplePool, rfl, reliable_twinStore, fun hstores => ?_⟩
  have hrun : ((fresh Engine.twinStore samplePool).run
      [.start 1 0 (.delete (some ⟨⟨.numbered 2, 0⟩, 0⟩)), .turn 1 .first]).bind (fun w =>
      (w.step (.keep 1)).map fun w' => (w.engine.pool.page? (samplePage 0),
        decide (w'.engine.store.bytes? (samplePage 0) = w.engine.store.bytes? (samplePage 0)))) =
      some (none, false) := by decide +kernel
  obtain ⟨w, hw, h⟩ := Option.bind_eq_some_iff.1 hrun
  obtain ⟨w', hw', h⟩ := Option.map_eq_some_iff.1 h
  obtain ⟨hcached, hbytes⟩ := Prod.mk.inj h
  rcases hstores (p := samplePage 0) (reachable_of_run _ .start (by decide) hw) (by decide) hw' with
    hsame | ⟨t, which, a, job, m, hturn, -⟩ | ⟨t, page, -, -, hpage, -⟩
  · exact of_decide_eq_false hbytes hsame
  · cases hturn
  · cases hcached.symm.trans hpage

end World
end PageStore
