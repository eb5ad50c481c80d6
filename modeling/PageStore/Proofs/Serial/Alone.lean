import PageStore.Proofs.Serial.Committed

/-!
# A transaction that is alone

While nobody but `t` holds a lock, and storage does not fail, every request of
`t` is granted, every page can be loaded as long as the cache has room for it
beside the dirty ones, and every insert or delete does exactly what it does to
plain tables: an insert goes through the full pages one after another, up to
the place that the tables name.

Results:
* `Alone.granted`, `Alone.load`: nothing stands in the way.
* `Alone.perform`: an undisturbed operation is a change of the tables.
* `Alone.commit`: a commit succeeds, and storage shows what readers saw.
-/
namespace PageStore

/-- The operation that makes a change. -/
def Change.operation : Change → Operation
  | .insert table tuple => .insert table tuple
  | .delete record => .delete (some record)

/-- Tables append empty pages, and never fail. -/
structure Store.Reliable (s : Store) : Prop where
  append : ∀ (t : TableId) (m : Mount), s.catalog[t]? = some m → m.file.append = .extendEmpty
  faults : ∀ (t : TableId) (m : Mount), s.catalog[t]? = some m → m.faults = .none

theorem Store.Reliable.orderly {s : Store} (h : s.Reliable) : s.Orderly := by
  refine ⟨h.append, ?_⟩
  intro t m hm
  rw [h.faults t m hm]
  rfl

theorem Store.Reliable.of_catalog {s s' : Store} (h : s.Reliable) (hc : s'.catalog = s.catalog) :
    s'.Reliable := by
  refine ⟨?_, ?_⟩ <;> rw [hc]
  · exact h.append
  · exact h.faults

/-- A page that fits beside the dirty ones finds room. -/
theorem Pool.room_isOk {c : Pool} (ht : c.Tidy) (hl : c.latched = []) {dirty : Finset PageId}
    (hd : ∀ q, q ∉ dirty → c.IsClean q) {p : PageId} (hroom : (insert p dirty).card ≤ c.capacity) :
    ∃ c', c.room p = .ok c' := by
  unfold room
  split
  · exact ⟨c, rfl⟩
  · next h =>
    rw [not_or, isCached_iff, Nat.not_lt] at h
    obtain ⟨hp, hsize⟩ := h
    by_contra hn
    have hall : ∀ q ∈ c.cached, q ∈ dirty := by
      intro q hq
      by_contra hclean
      obtain ⟨f, hf⟩ := Option.isSome_iff_exists.1 (Std.TreeMap.mem_iff_isSome_getElem?.1 hq)
      refine hn (evict_isOk ht hf (hd q hclean f.page (page?_eq_some.2 ⟨f, hf, rfl⟩)) ?_)
      rw [hl]
      simp
    have hkeys : c.cached.keys.toFinset.card = c.cached.size := by
      rw [List.toFinset_card_of_nodup, Std.TreeMap.length_keys]
      exact Std.TreeMap.distinct_keys.imp fun h he => h (by rw [he]; exact Std.ReflCmp.compare_self)
    have hlt : c.cached.keys.toFinset.card < (insert p dirty).card := by
      refine Finset.card_lt_card ((Finset.ssubset_iff_of_subset ?_).2 ⟨p, Finset.mem_insert_self _ _, ?_⟩)
      · intro q hq
        rw [List.mem_toFinset, Std.TreeMap.mem_keys] at hq
        exact Finset.mem_insert_of_mem (hall q hq)
      · rw [List.mem_toFinset, Std.TreeMap.mem_keys]
        exact hp
    omega

namespace Engine

/-- The tables as a reader finds them. -/
def tables (e : Engine) : Tables := ⟨e.store.slots, e.store.pages, e.content?⟩

/-- Nobody but `t` holds a lock, storage does not fail, and only the listed
pages may be dirty. -/
structure Alone (e : Engine) (t : TxnId) (dirty : Finset PageId) : Prop where
  coherent : Coherent e
  reliable : e.store.Reliable
  latched : e.pool.latched = []
  locks : ∀ u p, e.pool.locks.holds u p = true → u = t
  clean : ∀ p, p ∉ dirty → e.pool.IsClean p

variable {e e' : Engine} {t : TxnId} {p : PageId} {dirty : Finset PageId}

theorem Alone.turnover (h : Alone e t dirty) (hturn : Turnover e e') (ht : e'.pool.Tidy) :
    Alone e' t dirty ∧ e'.tables = e.tables := by
  refine ⟨⟨h.coherent.reload hturn.reload ht, ?_, ?_, ?_, ?_⟩, ?_⟩
  · rw [hturn.store]
    exact h.reliable
  · exact hturn.rules.latched.trans h.latched
  · rw [hturn.rules.locks]
    exact h.locks
  · intro q hq page hp
    by_contra hd
    exact hd (h.clean q hq page (hturn.of_dirty h.coherent.catalog hp hd))
  · rw [tables, tables, hturn.store, funext (content_turnover h.coherent.toBacked hturn)]

theorem Alone.granted (h : Alone e t dirty) (ticket : Ticket) (p : PageId) (mode : LockMode)
    (purpose : Purpose) :
    (e.pool.locks.request ticket ⟨t, p, mode, purpose⟩ .first).2 = .granted ∧
      Alone (e.withLocks (e.pool.locks.request ticket ⟨t, p, mode, purpose⟩ .first).1) t dirty := by
  refine ⟨LockTable.granted_of_alone h.coherent.locks (fun u => h.locks u p) _ _ _ _,
    h.coherent.request _ _ _, h.reliable, h.latched, ?_, h.clean⟩
  intro u q hu
  rcases LockTable.request_cases e.pool.locks ticket ⟨t, p, mode, purpose⟩ .first with
    ⟨entry, hd, hg⟩ | ⟨-, he, -⟩
  · obtain ⟨o, ho, hmem⟩ := LockTable.mem_holdersSet.1 (LockTable.holds_iff.1 hu)
    change (e.pool.locks.request ticket ⟨t, p, mode, purpose⟩ .first).1.entries[q]? = some o at ho
    rw [hg, LockTable.entries_grant] at ho
    split at ho
    · next hq =>
      cases ho
      rcases ((LockEntry.decide_grant hd).1 u).1 hmem with hu | ⟨o', ho', hu⟩
      · exact hu
      · exact h.locks u p (LockTable.holds_iff.2 (LockTable.mem_holdersSet.2 ⟨o', ho', hu⟩))
    · exact h.locks u q (LockTable.holds_iff.2 (LockTable.mem_holdersSet.2 ⟨o, ho, hmem⟩))
  · refine h.locks u q ?_
    rw [LockTable.holds_iff, LockTable.mem_holdersSet] at hu ⊢
    exact he ▸ hu

/-- Every visible page can be loaded. -/
theorem Alone.load (h : Alone e t dirty) {page : Page} (hp : e.visible? p = some page)
    (hroom : (insert p dirty).card ≤ e.pool.capacity) :
    ∃ e' f, e.load p = (e', .ok f) ∧ f.page = page ∧ e'.pool.cached[p]? = some f ∧
      Turnover e e' ∧ Alone e' t dirty ∧ e'.tables = e.tables := by
  have hok : ∃ e' f, e.load p = (e', .ok f) := by
    unfold Engine.load
    split
    · exact ⟨_, _, rfl⟩
    · next hh =>
      have hn : e.pool.page? p = none := by
        rw [Pool.page?_eq_none]
        simpa [Pool.hit] using hh
      rw [visible_of_not_cached hn] at hp
      obtain ⟨m, hm⟩ := Store.mount_of_page? hp
      have hread : e.store.readPage p = .ok page := by
        refine Store.readPage_of_page? hm ?_ hp
        rw [h.reliable.faults _ _ hm]
        simp [Faults.none]
      rw [hread]
      dsimp only
      obtain ⟨c, f, hi⟩ := Pool.install_isOk page
        (Pool.room_isOk (c := { e.pool with counters := e.pool.counters.addMiss.addRead })
          ⟨h.coherent.tidy.size, h.coherent.tidy.order⟩ h.latched h.clean hroom)
      rw [hi]
      exact ⟨_, _, rfl⟩
  obtain ⟨e', f, hl⟩ := hok
  obtain ⟨hf, hv⟩ := load_eq_ok hl
  have hturn := load_turnover hl
  have htidy := tidy_load h.coherent.tidy p
  rw [hl] at htidy
  obtain ⟨halone, htables⟩ := h.turnover hturn htidy
  exact ⟨e', f, hl, Option.some.inj (hv.symm.trans hp), hf, hturn, halone, htables⟩

/-- A page that enters the cache changed changes the tables. -/
theorem Alone.entered (h : Alone e t dirty) {page : Page}
    (hn : Entered e e' p (page.withDirtier (some t))) (hid : page.id = p) (hs : page.Sound)
    (hf : e.store.Fits page) (hown : e.pool.locks.Owns t p) {old : Page}
    (hold : e.store.page? p = some old) :
    Alone e' t (insert p dirty) ∧ e'.tables = e.tables.set p page.grid := by
  have hlt := (Store.sound_page? h.coherent.catalog hold).2.2.2.2
  refine ⟨⟨h.coherent.entered hn hid hs hf hown ⟨old, hold⟩, ?_, ?_, ?_, ?_⟩, ?_⟩
  · rw [hn.store]
    exact h.reliable
  · exact hn.rules.latched.trans h.latched
  · rw [hn.rules.locks]
    exact h.locks
  · intro q hq page' hp
    rw [Finset.mem_insert, not_or] at hq
    rcases hn.other q hq.1 with he | ⟨-, he⟩
    · exact h.clean q hq.2 page' (he ▸ hp)
    · rw [he] at hp
      cases hp
  · have hpages : ∀ u, e'.store.pages u =
        if u = p.table then max (e.store.pages u) (p.index + 1) else e.store.pages u := by
      intro u
      rw [hn.store]
      split
      · next hu =>
        subst hu
        exact (Nat.max_eq_left hlt).symm
      · rfl
    have hshows : ∀ q, e'.content? q = if q = p then some page.grid else e.content? q := by
      intro q
      split
      · next hq => rw [hq, content_of_cached hn.cached, Page.grid_withDirtier]
      · next hq => exact content_modify h.coherent.toBacked hn.store hn.other hq
    rw [tables, funext hpages, funext hshows, hn.store]
    rfl

/-- A page that is appended empty is a blank page of the tables. -/
theorem Alone.stow (h : Alone e t dirty) {m : Mount} {job : Placement} {filled : Page} {r : RecordId}
    (hm : e.store.catalog[p.table]? = some m) (hj : job.tuple.Sound)
    (hf : (Page.empty p m.file.layout m.file.pageSize).insert job.tuple = .ok (filled, r))
    (hi : p.index = e.store.pages p.table) :
    let e1 := e.stow m (firstImage m.file p filled)
    Alone e1 t dirty ∧ (∃ page, e1.store.page? p = some page) ∧
      e1.tables = e.tables.set p (e.tables.blank p.table) := by
  intro e1
  obtain ⟨hc, hstored⟩ := h.coherent.stow hm hj hf hi
  obtain ⟨-, hid, hsound, -, hsize⟩ := new_page hj hf
  have hnone := h.coherent.not_cached (Nat.le_of_eq hi.symm)
  refine ⟨⟨hc, h.reliable.of_catalog rfl, h.latched, h.locks, h.clean⟩,
    ⟨_, (hstored p).trans (if_pos rfl)⟩, ?_⟩
  have hpages : ∀ u, e1.store.pages u =
      if u = p.table then max (e.store.pages u) (p.index + 1) else e.store.pages u := by
    intro u
    have hm' : e.store.catalog[(firstImage m.file p filled).id.table]? = some m := hid.symm ▸ hm
    have := Store.pages_put h.coherent.catalog hm' hsound hsize u
    rwa [hid] at this
  have hshows : ∀ q, e1.content? q = if q = p then some (e.tables.blank p.table) else e.content? q := by
    intro q
    split
    · next hq =>
      subst hq
      have hpool : e1.pool.page? q = none := hnone.1
      rw [content?, visible_of_not_cached hpool, hstored, if_pos rfl, Option.map_some,
        Page.grid_asStored, grid_firstImage h.reliable.orderly hm]
      rfl
    · next hq =>
      change ((e.pool.page? q <|> e1.store.page? q).map Page.grid) = _
      rw [hstored, if_neg hq]
      rfl
  rw [tables, funext hpages, funext hshows]
  rfl

/-! ## Turns that are granted -/

theorem turnAlone_granted {ticket : Ticket} {r : LockRequest Purpose}
    (hg : (e.pool.locks.request ticket r .first).2 = .granted) {a : Advance}
    (hs : (e.withLocks (e.pool.locks.request ticket r .first).1).serve r.txn r.page r.purpose = (e', a)) :
    e.turnAlone ticket r .first = (e', progressOf r.txn a) := by
  have hturn : e.turn ticket r .first = (e', progressOf r.txn a) := by
    rcases e.turn_cases ticket r .first with ⟨-, he⟩ | ⟨hn, -⟩ | ⟨hn, -⟩
    · rw [he, hs]
    · rw [hg] at hn
      cases hn
    · rw [hg] at hn
      cases hn
  unfold turnAlone
  rw [hturn]
  cases a <;> rfl

theorem settle_done {ticket : Ticket} {r : LockRequest Purpose}
    (hg : (e.pool.locks.request ticket r .first).2 = .granted) {result : Except Error Outcome}
    (hs : (e.withLocks (e.pool.locks.request ticket r .first).1).serve r.txn r.page r.purpose =
      (e', .done result)) : e.settle ticket r .first = (e', .done result) := by
  have hturn := turnAlone_granted hg hs
  rw [settle]
  split
  · next h1 => rw [hturn] at h1; cases h1; rfl
  · next h1 => rw [hturn] at h1; cases h1
  · next h1 => rw [hturn] at h1; cases h1

theorem settle_next {ticket : Ticket} {r r' : LockRequest Purpose}
    (hg : (e.pool.locks.request ticket r .first).2 = .granted) {a : Advance}
    (hs : (e.withLocks (e.pool.locks.request ticket r .first).1).serve r.txn r.page r.purpose = (e', a))
    (hn : progressOf r.txn a = .next r') : e.settle ticket r .first = e'.settle ticket r' .first := by
  have hturn := turnAlone_granted hg hs
  rw [hn] at hturn
  rw [settle]
  split
  · next h1 => rw [hturn] at h1; cases h1
  · next h1 => rw [hturn] at h1; cases h1
  · next h1 => rw [hturn] at h1; cases h1; rfl

/-! ## Changes -/

/-- `t` has made the change, on the page that the tables name for it. -/
structure Made (e e' : Engine) (t : TxnId) (dirty : Finset PageId) (change : Change) (page : Page) :
    Prop where
  target : page.id = e.tables.target change
  tables : e.tables.change? change = some e'.tables
  alone : Alone e' t (insert page.id dirty)
  capacity : e'.pool.capacity = e.pool.capacity
  catalog : e'.store.catalog = e.store.catalog

variable {change : Change}

/-- Whatever happened before that no reader sees does not matter. -/
theorem Made.after {e1 : Engine} {page : Page} (h : Made e1 e' t dirty change page)
    (htables : e1.tables = e.tables) (hcap : e1.pool.capacity = e.pool.capacity)
    (hcat : e1.store.catalog = e.store.catalog) : Made e e' t dirty change page := by
  refine ⟨?_, ?_, h.alone, h.capacity.trans hcap, h.catalog.trans hcat⟩
  · rw [← htables]
    exact h.target
  · rw [← htables]
    exact h.tables

/-- A page that was loaded is changed. -/
theorem Alone.replace {e1 : Engine} (h : Alone e1 t dirty) (hturn : Turnover e e1)
    (hview : e1.tables = e.tables) (hown : e.pool.locks.Owns t p) {f : Frame}
    (hcached : e1.pool.cached[p]? = some f) (htarget : e.tables.target change = p) {new : Page}
    (hedit : change.edit? f.page.grid = some new.grid) (hid : new.id = f.page.id) (hs : new.Sound)
    (hf : e.store.Fits new) :
    Made e { e1 with pool := e1.pool.replace p f new t } t dirty change
      (new.withDirtier (some t)) := by
  have hpage : e1.pool.page? p = some f.page := Pool.page?_eq_some.2 ⟨f, hcached, rfl⟩
  obtain ⟨hpid, -, -, old, hold⟩ := h.coherent.visible (visible_of_cached hpage)
  have hlt := (Store.sound_page? h.coherent.catalog hold).2.2.2.2
  have hid' : new.id = p := hid.trans hpid
  have hentered := entered_replace (t := t) h.coherent.tidy hcached new
  rw [← hturn.store] at hf
  rw [← hturn.rules.locks] at hown
  rw [← hview] at htarget
  obtain ⟨halone, htables⟩ := h.entered hentered hid' hs hf hown hold
  have hmade : Made e1 { e1 with pool := e1.pool.replace p f new t } t dirty change
      (new.withDirtier (some t)) := by
    refine ⟨hid'.trans htarget.symm, ?_, ?_, rfl, rfl⟩
    · refine Tables.change_eq_some.2 ⟨f.page.grid, new.grid, ?_, hedit, ?_⟩
      · rw [htarget, Tables.opened_of_lt (s := e1.tables) hlt]
        exact content_of_cached hpage
      · rw [htarget]
        exact htables
    · change Alone _ t (insert new.id dirty)
      rw [hid']
      exact halone
  exact hmade.after hview hturn.rules.capacity (by rw [hturn.store])

theorem nextPlace_asks (t : TxnId) (job : Placement) (page count : Nat) :
    ∃ r, progressOf t (HeapFile.nextPlace job page count) = .next r := by
  unfold HeapFile.nextPlace
  split <;> exact ⟨_, rfl⟩

/-! ## What a granted request of `t` does -/

/-- A row is deleted from its page. -/
theorem Alone.serve_remove (h : Alone e t dirty) {record : RecordId}
    (hown : e.pool.locks.Owns t record.page) (hc : ∃ s, e.tables.change? (.delete record) = some s)
    (hroom : (insert record.page dirty).card ≤ e.pool.capacity) :
    ∃ e' page, e.serve t record.page (.remove record) = (e', .done (.ok (.changed page))) ∧
      Made e e' t dirty (.delete record) page := by
  obtain ⟨s, hs⟩ := hc
  obtain ⟨old, new, hold, hnew⟩ := Tables.delete_shows hs
  obtain ⟨page, hv, rfl⟩ := Option.map_eq_some_iff.1 hold
  obtain ⟨e2, f, hl, rfl, hcached, hturn, h2, htables⟩ := h.load hv hroom
  obtain ⟨hid, hsound, hfits, -⟩ := h.coherent.visible hv
  obtain ⟨freed, hf⟩ := Change.delete_isOk hid hnew
  have hgrid := Change.edit_delete hf
  have hfreed := hsound.delete hf
  obtain ⟨r', -, -, -, heq⟩ := Page.delete_eq_ok hf
  have hmade := h2.replace hturn htables hown hcached rfl hgrid (by rw [heq]) hfreed
    (by rw [heq]; exact hfits)
  refine ⟨_, _, ?_, hmade⟩
  rw [serve, serveRemove, hl]
  dsimp only
  rw [hf]

section
variable (h : Alone e t dirty) {job : Placement} (hj : job.Proper e.store)
  (hp : p.table = job.file.id) (hroom : (insert p dirty).card ≤ e.pool.capacity)

include h hroom

/-- An insert goes on from a full page to the next one. -/
theorem Alone.serve_full {g : Grid} (job : Placement) (hg : e.content? p = some g)
    (hfull : g.Full) (limit : Nat) :
    ∃ e', e.serve t p (.place job limit) = (e', HeapFile.nextPlace job (p.index + 1) limit) ∧
      Turnover e e' ∧ Alone e' t dirty ∧ e'.tables = e.tables := by
  obtain ⟨page, hv, rfl⟩ := Option.map_eq_some_iff.1 hg
  obtain ⟨e2, f, hl, rfl, hcached, hturn, h2, htables⟩ := h.load hv hroom
  refine ⟨e2, ?_, hturn, h2, htables⟩
  rw [serve, servePlace, hl]
  dsimp only
  rw [if_pos (Page.freeCount_eq_zero_iff.2 hfull)]

include hj hp

/-- It puts its row on a page that is not full. -/
theorem Alone.serve_free (hown : e.pool.locks.Owns t p)
    (htarget : e.tables.target (.insert job.file.id job.tuple) = p)
    (hc : ∃ s, e.tables.change? (.insert job.file.id job.tuple) = some s)
    (hlt : p.index < e.store.pages p.table) (limit : Nat) :
    ∃ e' page, e.serve t p (.place job limit) = (e', .done (.ok (.changed page))) ∧
      Made e e' t dirty (.insert job.file.id job.tuple) page := by
  obtain ⟨s, hs⟩ := hc
  obtain ⟨old, new, hold, hnew, -⟩ := Tables.change_eq_some.1 hs
  rw [htarget, Tables.opened_of_lt (s := e.tables) hlt] at hold
  obtain ⟨page, hv, rfl⟩ := Option.map_eq_some_iff.1 hold
  obtain ⟨e2, f, hl, rfl, hcached, hturn, h2, htables⟩ := h.load hv hroom
  obtain ⟨hid, hsound, hfits, -⟩ := h.coherent.visible hv
  have hfull : ¬f.page.grid.Full := by
    intro hf
    have hn : (Change.insert job.file.id job.tuple).edit? f.page.grid = none :=
      Grid.full_iff_insert?.1 hf
    rw [hn] at hnew
    cases hnew
  have hagrees : job.tuple.layout.agrees f.page.layout = true := by
    obtain ⟨m, hm, hmf, -⟩ := mount_of_proper hj (p := f.page.id) (by rw [hid, hp])
    obtain ⟨m', hm', hl', -⟩ := hfits
    obtain rfl : m = m' := Option.some.inj (hm.symm.trans hm')
    rw [hl', hmf]
    exact hj.agrees
  obtain ⟨filled, r, hf⟩ := Page.insert_isOk hagrees hfull
  have hfilled := hsound.insert hj.tuple hf
  obtain ⟨slot, -, -, -, heq⟩ := Page.insert_eq_ok hf
  have hmade := h2.replace hturn htables hown hcached htarget (Page.grid_insert hf) (by rw [heq])
    hfilled (by rw [heq]; exact hfits)
  refine ⟨_, _, ?_, hmade⟩
  rw [serve, servePlace, hl]
  dsimp only
  rw [if_neg (fun hz => hfull (Page.freeCount_eq_zero_iff.1 hz)), hf]

/-- It appends a page if all are full. -/
theorem Alone.serve_append (hown : e.pool.locks.Owns t p)
    (htarget : e.tables.target (.insert job.file.id job.tuple) = p)
    (hlast : p.index = e.store.pages p.table) (hmax : p.index ≤ HeapFile.maxPages) :
    ∃ e' page, e.serve t p (.append job) = (e', .done (.ok (.changed page))) ∧
      Made e e' t dirty (.insert job.file.id job.tuple) page := by
  obtain ⟨m, filled, r, hm, hmf, hf, happend⟩ := appendPage_isOk hj hp h.coherent.toBacked hlast
  obtain ⟨h2, ⟨old, hold⟩, htables⟩ := h.stow hm hj.tuple hf hlast
  obtain ⟨⟨hid, hsound, hl, hsize⟩, -⟩ := new_page hj.tuple hf
  obtain ⟨c, f, hin⟩ := Pool.install_isOk (filled.withDirtier (some t))
    (Pool.room_isOk h2.coherent.tidy h2.latched h2.clean hroom)
  obtain ⟨hrules, hfp, hcached, hother⟩ := Pool.install_eq_ok hin
  have hentered : Entered (e.stow m (firstImage m.file p filled))
      ⟨(e.stow m (firstImage m.file p filled)).store, c⟩ p (filled.withDirtier (some t)) :=
    ⟨rfl, hrules, h2.coherent.tidy.install hin, Pool.page?_eq_some.2 ⟨f, hcached, hfp⟩, hother⟩
  obtain ⟨h3, htables3⟩ := h2.entered hentered hid hsound ⟨m, hid ▸ hm, hl, hsize⟩ hown hold
  rw [htables, Tables.set_set] at htables3
  have hserve : e.serve t p (.append job) =
      (⟨(e.stow m (firstImage m.file p filled)).store, c⟩,
        .done (.ok (.changed (filled.withDirtier (some t))))) := by
    obtain ⟨-, -, -, hpages⟩ := mount_of_proper hj hp
    have hcount : job.file.pageCount e.store.volume = .ok p.index :=
      HeapFile.pageCount_eq_ok_iff.2 ⟨hlast.trans hpages, hmax⟩
    rw [serve, serveAppend, hcount]
    dsimp only
    rw [if_neg (not_not_intro rfl), happend]
    dsimp only
    rw [enter, if_pos hj.installs]
    rw [show e.pool.install p (filled.withDirtier (some t)) = _ from hin]
    rfl
  refine ⟨_, _, hserve, ?_, ?_, ?_, hrules.capacity, rfl⟩
  · rw [htarget]
    exact hid
  · have hblank : (Change.insert job.file.id job.tuple).edit? (e.tables.blank p.table) =
        some filled.grid := by
      change (e.store.blank p.table).insert? job.tuple.fields = _
      rw [Store.blank_of_mount hm]
      exact Page.grid_insert hf
    rw [Tables.change_eq_some, htarget]
    exact ⟨_, filled.grid, Tables.opened_of_le (s := e.tables) (Nat.le_of_eq hlast.symm), hblank,
      htables3⟩
  · change Alone _ t (insert filled.id dirty)
    rw [hid]
    exact h3

end

/-! ## Undisturbed operations -/

/-- A request of `t` is granted and served. -/
theorem Alone.grant (h : Alone e t dirty) (ticket : Ticket) (p : PageId) (purpose : Purpose) :
    ∃ e1, Alone e1 t dirty ∧ e1.store = e.store ∧ e1.tables = e.tables ∧
      e1.pool.capacity = e.pool.capacity ∧ e1.pool.locks.Owns t p ∧
      (∀ e' result, e1.serve t p purpose = (e', .done result) →
        e.settle ticket ⟨t, p, .exclusive, purpose⟩ .first = (e', .done result)) ∧
      ∀ e' a r, e1.serve t p purpose = (e', a) → progressOf t a = .next r →
        e.settle ticket ⟨t, p, .exclusive, purpose⟩ .first = e'.settle ticket r .first := by
  obtain ⟨hg, h1⟩ := h.granted ticket p .exclusive purpose
  refine ⟨_, h1, rfl, rfl, rfl, LockTable.owns_of_granted hg rfl, ?_, ?_⟩
  · intro e' result hs
    exact settle_done hg hs
  · intro e' a r hs hn
    exact settle_next hg hs hn

/-- The rest of an insert from page `i` on. -/
theorem Alone.settle_place (ticket : Ticket) {job : Placement}
    (hmax : e.store.pages job.file.id ≤ HeapFile.maxPages)
    (h : Alone e t dirty) (hj : job.Proper e.store)
    (hc : ∃ s, e.tables.change? (.insert job.file.id job.tuple) = some s)
    (hroom : ∀ j, j ≤ e.tables.place job.file.id →
      (insert ⟨job.file.id, j⟩ dirty : Finset PageId).card ≤ e.pool.capacity)
    {i : Nat} (hi : i ≤ e.tables.place job.file.id) {r : LockRequest Purpose}
    (hr : progressOf t (HeapFile.nextPlace job i (e.store.pages job.file.id)) = .next r) :
    ∃ e' page, e.settle ticket r .first = (e', .done (.ok (.changed page))) ∧
      Made e e' t dirty (.insert job.file.id job.tuple) page := by
  -- the pages that the insert still has to pass
  induction hn : e.tables.place job.file.id - i generalizing e i r with
  | zero =>
    obtain ⟨hle, -, -⟩ := e.tables.place_spec job.file.id
    obtain rfl : i = e.tables.place job.file.id := by omega
    unfold HeapFile.nextPlace at hr
    split at hr
    · next hlt =>
      cases hr
      obtain ⟨e1, h1, hstore, htables, hcap, hown, hdone, -⟩ := h.grant ticket
        ⟨job.file.id, e.tables.place job.file.id⟩ (.place job (e.store.pages job.file.id))
      obtain ⟨e', page, hserve, hmade⟩ := h1.serve_free (hstore ▸ hj) rfl
        (by rw [hcap]; exact hroom _ hi) hown (by rw [htables]; rfl) (by rw [htables]; exact hc)
        (by rw [hstore]; exact hlt) (e.store.pages job.file.id)
      exact ⟨e', page, hdone _ _ hserve, hmade.after htables hcap (by rw [hstore])⟩
    · next hge =>
      cases hr
      have heq : e.tables.place job.file.id = e.store.pages job.file.id :=
        Nat.le_antisymm hle (Nat.le_of_not_lt hge)
      obtain ⟨e1, h1, hstore, htables, hcap, hown, hdone, -⟩ := h.grant ticket
        ⟨job.file.id, e.store.pages job.file.id⟩ (.append job)
      obtain ⟨e', page, hserve, hmade⟩ := h1.serve_append (hstore ▸ hj) rfl
        (by rw [hcap]; exact hroom _ (Nat.le_of_eq heq.symm)) hown
        (by rw [htables, Tables.target, heq]) (by rw [hstore]) hmax
      exact ⟨e', page, hdone _ _ hserve, hmade.after htables hcap (by rw [hstore])⟩
  | succ n ih =>
    obtain ⟨hle, hfull, -⟩ := e.tables.place_spec job.file.id
    have hlt : i < e.tables.place job.file.id := by omega
    have hip : i < e.store.pages job.file.id := Nat.lt_of_lt_of_le hlt hle
    rw [HeapFile.nextPlace, if_pos hip] at hr
    cases hr
    obtain ⟨g, hg, hgfull⟩ := isFull_iff.1 (hfull i hlt)
    obtain ⟨e1, h1, hstore, htables, hcap, -, -, hnext⟩ := h.grant ticket ⟨job.file.id, i⟩
      (.place job (e.store.pages job.file.id))
    have hg1 : e1.content? ⟨job.file.id, i⟩ = some g :=
      (congrFun (congrArg Tables.shows htables) _).trans hg
    obtain ⟨e2, hserve, hturn, h2, htables2⟩ := h1.serve_full
      (by rw [hcap]; exact hroom i hi) job hg1 hgfull (e.store.pages job.file.id)
    have hstore2 : e2.store = e.store := hturn.store.trans hstore
    have hcap2 : e2.pool.capacity = e.pool.capacity := hturn.rules.capacity.trans hcap
    have htables2 : e2.tables = e.tables := htables2.trans htables
    obtain ⟨r', hr'⟩ := nextPlace_asks t job (i + 1) (e.store.pages job.file.id)
    rw [hnext _ _ r' hserve hr']
    obtain ⟨e', page, hsettle, hmade⟩ := ih (e := e2) (i := i + 1) (r := r')
      (by rw [hstore2]; exact hmax) h2 (hstore2 ▸ hj) (by rw [htables2]; exact hc)
      (by rw [htables2, hcap2]; exact hroom) (by rw [htables2]; exact hlt)
      (by rw [hstore2]; exact hr') (by rw [htables2]; omega)
    exact ⟨e', page, hsettle, hmade.after htables2 hcap2 (by rw [hstore2])⟩

/-- An operation of `t` makes the change that its tables can make, as long as
the cache has room for each page that it looks at, and the table's pages can be
numbered. -/
theorem Alone.perform (h : Alone e t dirty) (hproper : change.Proper e.store)
    (hc : ∃ s, e.tables.change? change = some s)
    (hroom : ∀ q, (Edit.mk change (e.tables.target change) none).Reads q →
      (insert q dirty).card ≤ e.pool.capacity)
    (hmax : ∀ u, e.store.pages u ≤ HeapFile.maxPages) (ticket : Ticket) :
    ∃ e' page, e.perform ticket t change.operation = (e', .done (.ok (.changed page))) ∧
      Made e e' t dirty change page := by
  cases change with
  | insert table tuple =>
    obtain ⟨htuple, f, hfile, hagrees⟩ := hproper
    obtain ⟨m, hm, rfl⟩ := Option.map_eq_some_iff.1 hfile
    obtain rfl := h.coherent.catalog.id _ _ hm
    obtain ⟨r, hr⟩ := nextPlace_asks t ⟨m.file, tuple, true⟩ 0 (e.store.pages m.file.id)
    have hbegin : e.begin (.insert m.file.id tuple) =
        HeapFile.nextPlace ⟨m.file, tuple, true⟩ 0 (e.store.pages m.file.id) := by
      have hcount : m.file.pageCount e.store.volume = .ok (e.store.pages m.file.id) :=
        HeapFile.pageCount_eq_ok_iff.2 ⟨Store.pages_of_mount hm, hmax _⟩
      rw [begin, Catalog.lookup_eq_ok.2 hm]
      dsimp only
      rw [HeapFile.beginInsert, if_pos hagrees, hcount]
    have hjob : Placement.Proper ⟨m.file, tuple, true⟩ e.store := ⟨hfile, htuple, hagrees, rfl⟩
    have hsettle := h.settle_place ticket (hmax _) hjob hc ?_ (Nat.zero_le _) hr
    · rw [Engine.perform, Change.operation, hbegin, hr]
      exact hsettle
    · intro j hj
      refine hroom ⟨m.file.id, j⟩ ?_
      rcases Nat.lt_or_eq_of_le hj with hlt | rfl
      · exact .inr ⟨_, _, rfl, rfl, hlt⟩
      · exact .inl rfl
  | delete record =>
    obtain ⟨s, hs⟩ := hc
    obtain ⟨old, new, hold, -⟩ := Tables.delete_shows hs
    obtain ⟨page, hv, -⟩ := Option.map_eq_some_iff.1 hold
    obtain ⟨hid, -, ⟨m, hm, -⟩, -⟩ := h.coherent.visible hv
    rw [hid] at hm
    have hbegin : e.begin (.delete (some record)) = .ask record.page .exclusive (.remove record) := by
      unfold begin
      dsimp only
      rw [Catalog.lookup_eq_ok.2 hm]
      dsimp only
      rw [HeapFile.beginDelete, HeapFile.checkOwner, if_pos (h.coherent.catalog.id _ _ hm).symm]
    obtain ⟨e1, h1, hstore, htables, hcap, hown, hdone, -⟩ := h.grant ticket record.page (.remove record)
    obtain ⟨e', page', hserve, hmade⟩ := h1.serve_remove hown ⟨s, by rw [htables]; exact hs⟩
      (by rw [hcap]; exact hroom record.page (.inl rfl))
    refine ⟨e', page', ?_, hmade.after htables hcap (by rw [hstore])⟩
    rw [Engine.perform, Change.operation, hbegin]
    exact hdone _ _ hserve

/-! ## The end of a transaction -/

/-- A flush shows in nobody's tables. -/
theorem tables_flushed (h : Flushed e e') : e'.tables = e.tables := by
  rw [tables, tables, Store.slots_congr (Store.file_of_catalog h.catalog), funext h.pages,
    funext h.content]

section
variable (h : Alone e t dirty) (hf : Flushed e e')

include h hf

/-- What `t` has flushed was all that was dirty. -/
theorem Alone.clean_of_flushed (hspot : Spotless e' t) (q : PageId) : e'.pool.IsClean q := by
  intro page hq
  by_contra hd
  obtain ⟨u, hu⟩ := Option.ne_none_iff_exists'.1 hd
  rcases hf.page q with hun | ⟨page', hw⟩
  · obtain rfl : u = t := h.locks u q (h.coherent.owned q page u (hun.cached ▸ hq) hu).2
    exact hspot q page hq hu
  · rw [hw.cached] at hq
    cases hq
    exact hd rfl

/-- What `t` has released was all that was locked. -/
theorem Alone.not_holds (u : TxnId) (q : PageId) :
    (e'.releaseAll t).1.pool.locks.holds u q ≠ true := by
  intro hu
  have hsafe : e'.pool.locks.Safe := by
    rw [hf.rules.locks]
    exact h.coherent.locks
  rw [LockTable.holds_iff] at hu
  obtain ⟨hne, hu⟩ := (LockTable.mem_holdersSet_releaseAll hsafe).1 hu
  rw [hf.rules.locks] at hu
  exact hne (h.locks u q (LockTable.holds_iff.2 hu))

end

/-- After a commit nobody holds a lock and nothing is dirty, so storage shows
what readers see, which is as before. -/
theorem Alone.commit (h : Alone e t dirty) :
    (e.commit t).result = .ok () ∧ (∀ u, Alone (e.commit t).engine u ∅) ∧
      (e.commit t).engine.tables = e.tables ∧ (e.commit t).engine.store.tables = e.tables ∧
      (e.commit t).engine.pool.capacity = e.pool.capacity ∧
      (e.commit t).engine.store.catalog = e.store.catalog := by
  have hok := keepChanges_isOk h.coherent h.reliable.orderly.writes t
  have hcommit : e.commit t = e.keepChanges t := by
    unfold Engine.commit
    dsimp only
    rw [hok]
  have hc := (keepChanges_spec h.coherent t).1
  obtain ⟨e1, hf, -, hspot, he⟩ := keepChanges_of_ok h.coherent hok
  rw [hcommit, he]
  rw [he] at hc
  have hclean := h.clean_of_flushed hf hspot
  have htables : (e1.releaseAll t).1.tables = e.tables := by
    rw [← tables_flushed hf]
    rfl
  refine ⟨hok, ?_, htables, ?_, hf.rules.capacity, hf.catalog⟩
  · intro u
    refine ⟨hc, h.reliable.of_catalog hf.catalog, hf.rules.latched.trans h.latched, ?_, ?_⟩
    · intro v q hv
      exact absurd hv (h.not_holds hf v q)
    · intro q _
      exact hclean q
  · rw [← htables, tables, Store.tables]
    congr 1
    funext q
    exact (hc.content_of_clean (hclean q)).symm

end Engine
end PageStore
