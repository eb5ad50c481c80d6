import PageStore.Proofs.Interleaving.World
import PageStore.Proofs.Pool.Orderly

/-!
# Clean pages show what is stored, dirty pages belong to their dirtier

Whatever transactions do in a world, and in whatever order, the engine stays
coherent, also across failed writes and reads, commits that break off, appends
that find no room in the cache, and pages dropped in the middle of everything.

Results:
* `coherent_fresh`, `coherent_step`, `coherent_of_reachable`: the invariant
  `Coherent`, along every run.
* `operated_of_reachable`: the engine of a world is one that orderly acts lead to.
* `setup_of_reachable`: files and the capacity of the cache never change.
* `fate_step`: what can become of a dirty page in one step.
* `cache_follows_storage`: the same, said of every reachable world.
-/
namespace PageStore

theorem Operation.sound_of_isProper {table : TableId} {tuple : Tuple}
    (h : (Operation.insert table tuple).isProper = true) : tuple.Sound := by
  simp only [isProper, Bool.and_eq_true, decide_eq_true_eq] at h
  exact ⟨h.1, h.2⟩

/-- The first request of a proper operation is proper. -/
theorem Engine.proper_begin {e : Engine} (hc : e.store.catalog.Sound) {operation : Operation}
    (ho : operation.isProper = true) {p : PageId} {mode : LockMode} {purpose : Purpose} (t : TxnId)
    (h : e.begin operation = .ask p mode purpose) :
    LockRequest.Proper ⟨t, p, mode, purpose⟩ e.store := by
  cases operation with
  | lock => cases h; trivial
  | fetch => cases h; trivial
  | insertInto => cases ho
  | deleteFrom => cases ho
  | insert table tuple =>
    unfold begin at h
    dsimp only at h
    split at h
    · cases h
    · next m hm =>
      rw [Catalog.lookup_eq_ok] at hm
      unfold HeapFile.beginInsert at h
      split at h
      · next ha =>
        split at h
        · cases h
        · have hid := hc.id _ _ hm
          have hj : Placement.Proper ⟨m.file, tuple, true⟩ e.store := by
            refine ⟨?_, Operation.sound_of_isProper ho, ha, rfl⟩
            rw [Store.file?, hid, hm]
            rfl
          exact (proper_nextPlace (t := t) hj (by rw [h]; rfl)).2
      · cases h
  | delete record =>
    unfold begin at h
    dsimp only at h
    split at h
    · cases h
    · split at h
      · cases h
      · unfold HeapFile.beginDelete at h
        dsimp only at h
        split at h
        · cases h
        · cases h
          exact ⟨rfl, rfl⟩

/-- Events that write dirty pages back. -/
def Event.writesBack : Event → Bool
  | .keep _ | .flushPage _ | .flushTxn _ | .flushAll | .discard _ => true
  | _ => false

theorem Event.writesBack_of_isFlush {event : Event} (h : event.isFlush = true) :
    event.writesBack = true := by
  cases event <;> first | rfl | cases h

namespace World

/-- The engine is coherent, and every operation under way asks for what its
transaction may ask for. -/
structure Coherent (w : World) : Prop where
  engine : w.engine.Coherent
  active : ∀ (t : TxnId) (a : Activity), w.active[t]? = some a →
    a.request.txn = t ∧ a.request.Proper w.engine.store

/-- A new pool over any storage whose catalog is sound. -/
theorem coherent_fresh {store : Store} (hs : store.catalog.Sound) {capacity : Nat}
    {policy : DeadlockPolicy} {pool : Pool} (hp : Pool.new capacity policy = .ok pool) :
    (fresh store pool).Coherent := by
  refine ⟨⟨Engine.backed_new hs hp, ?_, fun p page t h => ?_⟩, fun t a h => ?_⟩
  · unfold Pool.new at hp
    split at hp
    · cases hp
    · cases hp
      exact LockTable.safe_new policy
  · change pool.page? p = some page at h
    rw [Pool.page?_new hp] at h
    cases h
  · simp [fresh] at h

/-! ## What a turn does -/

/-- The engine before a turn, with the lock it was granted. -/
def granted (w : World) (a : Activity) (which : Turn) : Engine :=
  w.engine.withLocks (w.engine.pool.locks.request a.ticket a.request which).1

variable {w w' : World} {t : TxnId} {a : Activity}

/-- A turn serves its request, under a lock that it then holds, or leaves all
content alone. -/
theorem turn_served (hw : w.Coherent) (ha : w.active[t]? = some a) (which : Turn) :
    let e' := (w.engine.turn a.ticket a.request which).1
    let progress := (w.engine.turn a.ticket a.request which).2
    (∃ advance, progress = Engine.progressOf t advance ∧
      (a.request.mode = .exclusive → (w.granted a which).pool.locks.Owns t a.request.page) ∧
      Engine.Served (w.granted a which) t a.request.page a.request.purpose e' advance) ∨
    ((progress = .asleep ∨ ∃ x, progress = .done (.error x)) ∧ e'.Coherent ∧
      Engine.Turnover (w.granted a which) e') := by
  intro e' progress
  obtain ⟨htxn, hproper⟩ := hw.active t a ha
  have hc := hw.engine.request a.ticket a.request which
  rcases w.engine.turn_cases a.ticket a.request which with ⟨hg, he⟩ | ⟨-, he⟩ | ⟨-, he⟩
  · refine .inl ⟨((w.granted a which).serve a.request.txn a.request.page a.request.purpose).2,
      ?_, ?_, ?_⟩
    · rw [← htxn]
      exact congrArg Prod.snd he
    · intro hx
      rw [← htxn]
      exact LockTable.owns_of_granted hg hx
    · have hserved : Engine.Served (w.granted a which) t a.request.page a.request.purpose _ _ :=
        Engine.serve_spec hc.toBacked hproper
      have he' : e' = _ := congrArg Prod.fst he
      rw [he', htxn]
      exact hserved
  · have he' : e' = _ := congrArg Prod.fst he
    have hp' : progress = _ := congrArg Prod.snd he
    rw [he', hp']
    exact .inr ⟨.inl rfl, hc, .refl _⟩
  · have he' : e' = _ := congrArg Prod.fst he
    have hp' : progress = _ := congrArg Prod.snd he
    rw [he', hp']
    exact .inr ⟨.inr ⟨_, rfl⟩, hc.countAbort, rfl, ⟨rfl, rfl, rfl⟩, fun _ => .inl rfl⟩

/-- A turn that leads to another request has served its own. -/
theorem served_of_next (hw : w.Coherent) (ha : w.active[t]? = some a) {which : Turn}
    {r : LockRequest Purpose} (h : (w.engine.turn a.ticket a.request which).2 = .next r) :
    ∃ advance, Engine.progressOf t advance = .next r ∧
      (a.request.mode = .exclusive → (w.granted a which).pool.locks.Owns t a.request.page) ∧
      Engine.Served (w.granted a which) t a.request.page a.request.purpose
        (w.engine.turn a.ticket a.request which).1 advance := by
  rcases turn_served hw ha which with ⟨advance, hp, hown, hserved⟩ | ⟨hp | ⟨x, hp⟩, -⟩
  · exact ⟨advance, hp.symm.trans h, hown, hserved⟩
  · cases hp.symm.trans h
  · cases hp.symm.trans h

/-- So has a turn with which an operation succeeds. -/
theorem served_of_ok (hw : w.Coherent) (ha : w.active[t]? = some a) {which : Turn}
    {outcome : Outcome} (h : (w.engine.turn a.ticket a.request which).2 = .done (.ok outcome)) :
    (a.request.mode = .exclusive → (w.granted a which).pool.locks.Owns t a.request.page) ∧
      Engine.Served (w.granted a which) t a.request.page a.request.purpose
        (w.engine.turn a.ticket a.request which).1 (.done (.ok outcome)) := by
  rcases turn_served hw ha which with ⟨advance, hp, hown, hserved⟩ | ⟨hp | ⟨x, hp⟩, -⟩
  · cases advance with
    | done result =>
      cases hp.symm.trans h
      exact ⟨hown, hserved⟩
    | ask => cases hp.symm.trans h
  · cases hp.symm.trans h
  · cases hp.symm.trans h

/-! ## The invariant, step by step -/

/-- Operations under way do not mind what others do, as long as tables keep their files. -/
theorem Coherent.elsewhere (hw : w.Coherent) {e : Engine} (he : e.Coherent)
    (hf : ∀ u, e.store.file? u = w.engine.store.file? u) (chronicle : List Entry) :
    Coherent ⟨e, w.active, chronicle⟩ := by
  refine ⟨he, ?_⟩
  intro t a ha
  obtain ⟨htxn, hproper⟩ := hw.active t a ha
  exact ⟨htxn, Engine.proper_of_files (fun u _ h => (hf u).trans h) hproper⟩

theorem getElem?_active_insert (m : Std.TreeMap TxnId Activity) (t u : TxnId) (a : Activity) :
    (m.insert t a)[u]? = if u = t then some a else m[u]? := by
  rw [Std.TreeMap.getElem?_insert]
  simp only [Std.LawfulEqCmp.compare_eq_iff_eq, eq_comm (a := t)]

theorem getElem?_active_erase (m : Std.TreeMap TxnId Activity) (t u : TxnId) :
    (m.erase t)[u]? = if u = t then none else m[u]? := by
  rw [Std.TreeMap.getElem?_erase]
  simp only [Std.LawfulEqCmp.compare_eq_iff_eq, eq_comm (a := t)]

/-- After a turn of `t`, whoever is busy has the operation and the request that it
had before, or is `t` with the next request of its operation. -/
theorem active_turned (ha : w.active[t]? = some a) {e : Engine} {progress : Engine.Progress}
    {u : TxnId} {b : Activity} (hb : (w.turned t a e progress).active[u]? = some b) :
    (∃ b', w.active[u]? = some b' ∧ b'.operation = b.operation ∧ b'.request = b.request) ∨
      (u = t ∧ progress = .next b.request ∧ b.operation = a.operation) := by
  cases progress with
  | done result =>
    rw [turned, getElem?_active_erase] at hb
    split at hb
    · cases hb
    · exact .inl ⟨b, hb, rfl, rfl⟩
  | next r =>
    rw [turned, getElem?_active_insert] at hb
    split at hb
    · next hu =>
      cases hb
      exact .inr ⟨hu, rfl, rfl⟩
    · exact .inl ⟨b, hb, rfl, rfl⟩
  | asleep =>
    rw [turned, getElem?_active_insert] at hb
    split at hb
    · next hu =>
      cases hb
      exact .inl ⟨a, hu ▸ ha, rfl, rfl⟩
    · exact .inl ⟨b, hb, rfl, rfl⟩

theorem Coherent.begins (hw : w.Coherent) (h : a.request.txn = t ∧ a.request.Proper w.engine.store) :
    Coherent { w with active := w.active.insert t a } := by
  refine ⟨hw.engine, ?_⟩
  intro u b hb
  rw [getElem?_active_insert] at hb
  split at hb
  · next hu =>
    cases hb
    rw [hu]
    exact h
  · exact hw.active u b hb

theorem Coherent.turned (hw : w.Coherent) (ha : w.active[t]? = some a) {e : Engine} (he : e.Coherent)
    (hf : ∀ u, e.store.file? u = w.engine.store.file? u) {progress : Engine.Progress}
    (hn : ∀ r, progress = .next r → r.txn = t ∧ r.Proper e.store) :
    (w.turned t a e progress).Coherent := by
  refine ⟨by rw [engine_turned]; exact he, fun u b hb => ?_⟩
  rw [engine_turned]
  rcases active_turned ha hb with ⟨b', hb', -, hr⟩ | ⟨rfl, hp, -⟩
  · rw [← hr]
    exact (hw.elsewhere he hf w.chronicle).active u b' hb'
  · exact hn _ hp

theorem coherent_turn (hw : w.Coherent) (ha : w.active[t]? = some a) (which : Turn) :
    (w.turned t a (w.engine.turn a.ticket a.request which).1
      (w.engine.turn a.ticket a.request which).2).Coherent := by
  have hc := hw.engine.request a.ticket a.request which
  rcases turn_served hw ha which with ⟨advance, hp, hown, hserved⟩ | ⟨hp, he, hturn⟩
  · have hproper := (hw.active t a ha).2
    refine hw.turned ha (hserved.coherent hc hproper hown) (Store.file_of_catalog hserved.catalog) ?_
    intro r hr
    exact hserved.proper hproper (hp.symm.trans hr)
  · refine hw.turned ha he (fun u => by rw [hturn.store]; rfl) ?_
    intro r hr
    rcases hp with hp | ⟨x, hp⟩ <;> rw [hp] at hr <;> cases hr

/-- Every step keeps a world coherent. -/
theorem coherent_step (hw : w.Coherent) {event : Event} (hs : w.step event = some w') : w'.Coherent := by
  have keeps : ∀ t chronicle, Coherent ⟨(w.engine.keepChanges t).engine, w.active, chronicle⟩ := by
    intro t chronicle
    have hcatalog := Engine.catalog_keepChanges w.engine t
    exact hw.elsewhere (Engine.keepChanges_spec hw.engine t).1 (Store.file_of_catalog hcatalog) chronicle
  cases happens hs with
  | idle => exact hw
  | begun hidle ho hb => exact hw.begins ⟨rfl, Engine.proper_begin hw.engine.catalog ho _ hb⟩
  | turned ha => exact coherent_turn hw ha _
  | kept => exact keeps _ _
  | broken => exact keeps _ _
  | @dropped t =>
    refine hw.elsewhere (Engine.dropChanges_spec hw.engine t).1 (fun u => ?_) _
    rw [Engine.store_dropChanges]
  | flushed ps =>
    obtain ⟨hb, hf, -, -⟩ := Engine.flushEach_spec ps hw.engine.toBacked
    exact hw.elsewhere (hw.engine.flushed hb hf) (Store.file_of_catalog hf.catalog) _
  | @discarded p =>
    obtain ⟨-, he⟩ := Engine.discard_spec hw.engine.toBacked p
    refine hw.elsewhere (hw.engine.discard p) (fun u => ?_) _
    rcases he with he | ⟨e1, hf, hturn, -⟩
    · rw [he]
    · rw [hturn.store]
      exact Store.file_of_catalog hf.catalog u
  | @failing table faults =>
    have hfiles := Store.sameFiles_withFaults w.engine.store table faults
    exact hw.elsewhere (hw.engine.sameFiles hfiles) hfiles.file _
  | latching latched =>
    have hc : Engine.Coherent { w.engine with pool := { w.engine.pool with latched } } :=
      hw.engine.aside rfl rfl rfl rfl
    exact hw.elsewhere hc (fun _ => rfl) w.chronicle

theorem coherent_of_reachable {allowed : Event → Prop} {start : World} (h0 : start.Coherent)
    (h : Reachable allowed start w) : w.Coherent := by
  induction h with
  | start => exact h0
  | step event _ _ hs ih => exact coherent_step ih hs

/-- Whatever happens in a world is an orderly act on its engine. -/
theorem operated_step {start : Engine} (hw : w.Coherent) (ho : Engine.Operated start w.engine)
    {event : Event} (hs : w.step event = some w') : Engine.Operated start w'.engine := by
  cases happens hs with
  | idle => exact ho
  | begun => exact ho
  | turned ha _ =>
    rw [engine_turned]
    exact ho.act (.turn _ _ _) (hw.active _ _ ha).2
  | kept => exact ho.act (.keep _) trivial
  | broken => exact ho.act (.keep _) trivial
  | dropped => exact ho.act (.drop _) trivial
  | flushed ps _ => exact ho.act (.flush ps) trivial
  | discarded => exact ho.act (.discard _) trivial
  | failing =>
    exact ho.act (.storage _) ((Store.sameFiles_withFaults _ _ _).retains hw.engine.catalog)
  | latching latched _ => exact ho.act (.aside w.engine.pool.counters latched) trivial

theorem operated_of_reachable {allowed : Event → Prop} {start : World} (h0 : start.Coherent)
    (h : Reachable allowed start w) : Engine.Operated start.engine w.engine := by
  induction h with
  | start => exact .start
  | step event h _ hs ih => exact operated_step (coherent_of_reachable h0 h) ih hs

theorem reached_of_reachable {allowed : Event → Prop} {start : World} (h0 : start.Coherent)
    (h : Reachable allowed start w) : Engine.Reached start.engine w.engine :=
  Engine.reached_of_operated (operated_of_reachable h0 h)

/-! ## What stays as it is -/

/-- The capacity of the cache and the files of tables never change. -/
theorem setup_step (hw : w.Coherent) {event : Event} (hs : w.step event = some w') :
    w'.engine.pool.capacity = w.engine.pool.capacity ∧
      ∀ u, w'.engine.store.file? u = w.engine.store.file? u := by
  have flushed : ∀ {e : Engine}, Engine.Flushed w.engine e → e.pool.capacity = w.engine.pool.capacity ∧
      ∀ u, e.store.file? u = w.engine.store.file? u := by
    intro e hf
    exact ⟨hf.rules.capacity, Store.file_of_catalog hf.catalog⟩
  have keeps : ∀ t, (w.engine.keepChanges t).engine.pool.capacity = w.engine.pool.capacity ∧
      ∀ u, (w.engine.keepChanges t).engine.store.file? u = w.engine.store.file? u := by
    intro t
    obtain ⟨e1, locks, hf, -, he⟩ := Engine.keepChanges_flushed hw.engine t
    rw [he]
    exact ⟨hf.rules.capacity, Store.file_of_catalog hf.catalog⟩
  cases happens hs with
  | idle => exact ⟨rfl, fun _ => rfl⟩
  | begun => exact ⟨rfl, fun _ => rfl⟩
  | turned ha =>
    rw [engine_turned]
    rcases turn_served hw ha _ with ⟨advance, -, -, hserved⟩ | ⟨-, -, hturn⟩
    · exact ⟨hserved.capacity, Store.file_of_catalog hserved.catalog⟩
    · exact ⟨hturn.rules.capacity, fun u => by rw [hturn.store]; rfl⟩
  | kept => exact keeps _
  | broken => exact keeps _
  | @dropped t =>
    obtain ⟨-, e1, hr, -, he⟩ := Engine.dropChanges_spec hw.engine t
    dsimp only
    rw [he]
    exact ⟨hr.reload.rules.capacity, fun u => congrArg (·.file? u) hr.reload.store⟩
  | flushed ps => exact flushed (Engine.flushEach_spec ps hw.engine.toBacked).2.1
  | @discarded p =>
    rcases (Engine.discard_spec hw.engine.toBacked p).2 with he | ⟨e1, hf, hturn, -⟩
    · dsimp only
      rw [he]
      exact ⟨rfl, fun _ => rfl⟩
    · obtain ⟨hcap, hfile⟩ := flushed hf
      exact ⟨hturn.rules.capacity.trans hcap, fun u => by rw [hturn.store]; exact hfile u⟩
  | @failing table faults =>
    exact ⟨rfl, (Store.sameFiles_withFaults w.engine.store table faults).file⟩
  | latching => exact ⟨rfl, fun _ => rfl⟩

theorem setup_of_reachable {allowed : Event → Prop} {start : World} (h0 : start.Coherent)
    (h : Reachable allowed start w) : w.engine.pool.capacity = start.engine.pool.capacity ∧
      ∀ u, w.engine.store.file? u = start.engine.store.file? u := by
  induction h with
  | start => exact ⟨rfl, fun _ => rfl⟩
  | step event hr _ hs ih =>
    obtain ⟨hcap, hfile⟩ := setup_step (coherent_of_reachable h0 hr) hs
    exact ⟨hcap.trans ih.1, fun u => (hfile u).trans (ih.2 u)⟩

/-! ## What becomes of a dirty page -/

/-- A page that was dirty for `t` stays dirty for `t`; or it was written to
storage; or `t` aborted, and it was read again or dropped. -/
def Fate (event : Event) (w' : World) (p : PageId) (page : Page) (t : TxnId) : Prop :=
  (∃ page', w'.engine.pool.page? p = some page' ∧ page'.dirtier = some t) ∨
  (event.writesBack = true ∧ w'.engine.store.bytes? p = some page.image) ∨
  (event = .drop t ∧ (w'.engine.pool.page? p = none ∨
    ∃ stored, w'.engine.store.page? p = some stored ∧ w'.engine.pool.page? p = some stored))

theorem fate_flushed {event : Event} (he : event.writesBack = true) {e : Engine}
    (hf : Engine.Flushed w.engine e) (hengine : w'.engine.store = e.store)
    {p : PageId} {page : Page} (hp : w.engine.pool.page? p = some page)
    (hpages : e.pool.page? p = some page → ∃ page', w'.engine.pool.page? p = some page' ∧
      page'.dirtier = some t) : Fate event w' p page t := by
  rcases hf.page p with hu | ⟨page', hw⟩
  · exact .inl (hpages (hu.cached.trans hp))
  · have := hw.before.symm.trans hp
    cases this
    exact .inr (.inl ⟨he, by rw [hengine]; exact hw.bytes⟩)

theorem fate_step (hw : w.Coherent) {event : Event} (hs : w.step event = some w') {p : PageId}
    {page : Page} (hp : w.engine.pool.page? p = some page) (hd : page.dirtier = some t) :
    Fate event w' p page t := by
  have hdirty : page.dirtier ≠ none := by rw [hd]; simp
  have same : ∀ {e : Engine}, e.pool.page? p = some page →
      ∃ page', e.pool.page? p = some page' ∧ page'.dirtier = some t := fun h => ⟨page, h, hd⟩
  have keeps : ∀ u chronicle,
      Fate (.keep u) ⟨(w.engine.keepChanges u).engine, w.active, chronicle⟩ p page t := by
    intro u chronicle
    obtain ⟨e1, locks, hf, -, he⟩ := Engine.keepChanges_flushed hw.engine u
    rw [he]
    exact fate_flushed rfl hf rfl hp same
  cases happens hs with
  | idle => exact .inl (same hp)
  | begun => exact .inl (same hp)
  | @turned u which a ha =>
    have hc := hw.engine.request a.ticket a.request which
    refine .inl ?_
    rw [engine_turned]
    rcases turn_served hw ha which with ⟨advance, -, hown, hserved⟩ | ⟨-, -, hturn⟩
    · obtain ⟨page', hp', hd', -⟩ := hserved.dirty hc (hw.active u a ha).2 hown hp hd
      exact ⟨page', hp', hd'⟩
    · exact same (hturn.dirty hp hdirty)
  | kept => exact keeps _ _
  | broken => exact keeps _ _
  | @dropped u =>
    obtain ⟨-, e1, hr, -, he⟩ := Engine.dropChanges_spec hw.engine u
    have hview : (w.engine.dropChanges u).engine.pool.page? p = e1.pool.page? p := by rw [he]; rfl
    by_cases hmem : p ∈ w.engine.pool.dirtyPages (· == u)
    · obtain ⟨page', v, hp', hd', hv⟩ := Pool.mem_dirtyPages.1 hmem
      obtain rfl : page' = page := Option.some.inj (hp'.symm.trans hp)
      obtain rfl : v = t := Option.some.inj (hd'.symm.trans hd)
      obtain rfl : v = u := by simpa using hv
      refine .inr (.inr ⟨rfl, ?_⟩)
      dsimp only
      rw [hview, Engine.store_dropChanges]
      rcases hr.listed p hmem with hn | hl
      · exact .inl hn
      · obtain ⟨old, hold, -⟩ := hw.engine.stored p _ hp
        exact .inr ⟨old, hold, hl.trans hold⟩
    · exact .inl (same (hview.trans ((hr.other p hmem).trans hp)))
  | flushed ps he =>
    exact fate_flushed (Event.writesBack_of_isFlush he) (Engine.flushEach_spec ps hw.engine.toBacked).2.1
      rfl hp same
  | @discarded q =>
    rcases (Engine.discard_spec hw.engine.toBacked q).2 with he | ⟨e1, hf, hturn, -⟩
    · refine .inl (same ?_)
      rw [he]
      exact hp
    · exact fate_flushed rfl hf hturn.store hp fun h => same (hturn.dirty h hdirty)
  | failing => exact .inl (same hp)
  | latching => exact .inl (same hp)

/-- In every world that any events lead to from a new pool: a clean cached page
is the page that its stored bytes decode to; a dirty cached page is exclusively
locked by its dirtier; and what was dirty for `t` and is not any more was
written to storage, or was read again or dropped when `t` aborted. -/
theorem cache_follows_storage {store : Store} (hs : store.catalog.Sound) {capacity : Nat}
    {policy : DeadlockPolicy} {pool : Pool} (hp : Pool.new capacity policy = .ok pool) {w : World}
    (hw : Reachable (fun _ => True) (fresh store pool) w) :
    (∀ (p : PageId) (page : Page), w.engine.pool.page? p = some page → page.dirtier = none →
      ∃ stored, w.engine.store.page? p = some stored ∧ page.sameContent stored = true) ∧
    (∀ (p : PageId) (page : Page) (t : TxnId), w.engine.pool.page? p = some page →
      page.dirtier = some t →
      w.engine.pool.locks.modeOf? p = some .exclusive ∧ w.engine.pool.locks.holds t p = true) ∧
    ∀ (event : Event) (w' : World) (p : PageId) (page : Page) (t : TxnId),
      w.step event = some w' → w.engine.pool.page? p = some page → page.dirtier = some t →
      Fate event w' p page t := by
  have hc := coherent_of_reachable (coherent_fresh hs hp) hw
  refine ⟨?_, ?_, ?_⟩
  · intro p page hpage hclean
    obtain ⟨hid, hsound, m, hm, hl, hsize⟩ := hc.engine.page p page hpage
    obtain ⟨old, hold, hgrid⟩ := hc.engine.stored p page hpage
    obtain ⟨hid', -, hsound', ⟨m', hm', hl', hsize'⟩, -⟩ := Store.sound_page? hc.engine.catalog hold
    rw [hid] at hm
    rw [hid'] at hm'
    obtain rfl : m = m' := Option.some.inj (hm.symm.trans hm')
    refine ⟨old, hold, (Page.sameContent_iff hsound hsound').2 ⟨hid.trans hid'.symm, ?_, ?_, ?_⟩⟩
    · rw [hsize, hsize']
    · rw [hl, hl']
    · exact (hgrid hclean).symm
  · intro p page t hpage hdirty
    exact hc.engine.owned p page t hpage hdirty
  · intro event w' p page t hstep hpage hdirty
    exact fate_step hc hstep hpage hdirty

/-- A reader waits for a writer, a third transaction deletes what was written:
the page it dirtied is its own, and so is the page's fate. -/
theorem sample_cache_follows_storage :
    ∃ w page, (fresh sampleStore samplePool).run
        [.start 1 0 (.insert (.numbered 1) (sampleRow 5)), .turn 1 .first,
          .start 2 1 (.fetch (samplePage 0) .shared), .turn 2 .first, .keep 1, .turn 2 .woken, .keep 2,
          .start 3 2 (.delete (some ⟨samplePage 0, 0⟩)), .turn 3 .first] = some w ∧
      w.engine.pool.page? (samplePage 0) = some page ∧ page.dirtier = some 3 ∧
      w.engine.pool.locks.modeOf? (samplePage 0) = some .exclusive ∧
      w.engine.pool.locks.holds 3 (samplePage 0) = true ∧
      ∀ event w', w.step event = some w' → Fate event w' (samplePage 0) page 3 := by
  have hrun : (((fresh sampleStore samplePool).run
      [.start 1 0 (.insert (.numbered 1) (sampleRow 5)), .turn 1 .first,
        .start 2 1 (.fetch (samplePage 0) .shared), .turn 2 .first, .keep 1, .turn 2 .woken, .keep 2,
        .start 3 2 (.delete (some ⟨samplePage 0, 0⟩)), .turn 3 .first]).bind fun w =>
      (w.engine.pool.page? (samplePage 0)).map Page.dirtier) = some (some 3) := by decide +kernel
  obtain ⟨w, hw, h⟩ := Option.bind_eq_some_iff.1 hrun
  obtain ⟨page, hp, hd⟩ := Option.map_eq_some_iff.1 h
  obtain ⟨-, howned, hfate⟩ := cache_follows_storage sound_sampleStore
    (show Pool.new 2 .cycleDetection = .ok samplePool from rfl)
    (reachable_of_run _ .start (fun _ _ => trivial) hw)
  obtain ⟨hm, hh⟩ := howned _ page 3 hp hd
  exact ⟨w, page, hw, hp, hd, hm, hh, fun event w' hs => hfate event w' _ page 3 hs hp hd⟩

end World
end PageStore
