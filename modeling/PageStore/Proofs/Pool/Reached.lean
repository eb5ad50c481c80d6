import PageStore.Proofs.Page.Calls
import PageStore.Proofs.Pool.Serving

/-!
# Whatever happens to an engine

An act is anything that can happen to an engine: a turn of a request, the end of a
transaction or the early release of a page, a flush, a page discarded, a call on a page
through a handle, counters and latches set; and anything that others do to the
storage below, as long as registered tables keep their files. Acts come in any
order, and nobody has to keep to anything: a request may change a page without its
lock, a transaction may end twice or go on after its end, one table may share its
file with another. All that is asked for is that rows follow their layouts, and that
a page enters the cache only under its table.

So little can be relied on everywhere: an engine is `Sound` if the cache keeps to its
capacity, and each cached page is a sound page with the id and the shape that its
place calls for.

Results:
* `Sound.serve`, `Sound.flushEach`, `Sound.act`: acts keep an engine sound.
* `sound_of_reached`: every engine that acts lead to is sound.
* `keeps_of_proper`: and registered tables keep their files.
-/
namespace PageStore

/-! ## Pages in their places -/

namespace Store

variable {s s' : Store} {p : PageId} {page : Page}

/-- The page may stand at this place in a cache over the storage. -/
def Suits (s : Store) (p : PageId) (page : Page) : Prop := page.id = p ∧ page.Sound ∧ s.Fits page

/-- Registered tables keep their files. -/
def Keeps (s s' : Store) : Prop := ∀ t f, s.file? t = some f → s'.file? t = some f

theorem keeps_of_catalog (h : s'.catalog = s.catalog) : s.Keeps s' := fun t _ hf =>
  (file_of_catalog h t).trans hf

theorem SameFiles.keeps (h : s.SameFiles s') : s.Keeps s' := fun t _ hf => (h.file t).trans hf

theorem Suits.mono (h : s.Suits p page) (hk : s.Keeps s') : s'.Suits p page := by
  obtain ⟨hid, hs, m, hm, hl, hsize⟩ := h
  obtain ⟨m', hm', hfile⟩ := Option.map_eq_some_iff.1 (hk _ m.file (by rw [file?, hm]; rfl))
  exact ⟨hid, hs, m', hm', by rw [hl, hfile], by rw [hsize, hfile]⟩

theorem Suits.withDirtier (h : s.Suits p page) (t : Option TxnId) : s.Suits p (page.withDirtier t) :=
  ⟨h.1, h.2.1.withDirtier t, h.2.2⟩

theorem Suits.after (h : s.Suits p page) (call : Page.Call) : s.Suits p (page.after call) := by
  obtain ⟨hid, hs, m, hm, hl, hsize⟩ := h
  have hshape := Page.sameShape_after page call
  exact ⟨hshape.id.trans hid, hs.after call, m, by rw [hshape.id, hm], hshape.layout.trans hl,
    hshape.size.trans hsize⟩

/-- Whatever is read suits its place, whether or not the table shares its file. -/
theorem suits_of_stored (h : s.page? p = some page) : s.Suits p page := by
  obtain ⟨m, hm⟩ := mount_of_page? h
  rw [page?_of_mount hm, toOption_eq_some, HeapFile.readPage] at h
  split at h
  · cases h
  · split at h
    · cases h
    · have hsound := Page.sound_decode h
      obtain ⟨slots, -, rfl⟩ := Page.decode_eq_ok h
      exact ⟨rfl, hsound, m, hm, rfl, rfl⟩

end Store

/-- What the lock is wanted for can be done: rows follow their layouts, and a page to
be appended, if it is to enter the cache, is one of the registered table's file. -/
def Purpose.Sane (purpose : Purpose) (p : PageId) (s : Store) : Prop :=
  match purpose with
  | .hold | .fetch | .remove _ => True
  | .place job _ => job.tuple.Sound
  | .append job => job.tuple.Sound ∧
    (job.installs = true → p.table = job.file.id ∧ s.file? p.table = some job.file)

theorem LockRequest.Proper.sane {r : LockRequest Purpose} {s : Store} (h : r.Proper s) :
    r.purpose.Sane r.page s := by
  obtain ⟨t, p, mode, purpose⟩ := r
  cases purpose with
  | hold => trivial
  | fetch => trivial
  | place job limit => exact h.1.tuple
  | append job =>
    have htable : p.table = job.file.id := h.2.1
    exact ⟨h.1.tuple, fun _ => ⟨htable, htable ▸ h.1.file⟩⟩
  | remove record => trivial

/-- An append makes an empty page and puts the row on it. -/
theorem HeapFile.appendPage_eq_ok {f : HeapFile} {v v' : Volume} {index : Nat} {tuple : Tuple}
    {page : Page} (h : f.appendPage v index tuple = .ok (v', page)) :
    ∃ r, (Page.empty ⟨f.id, index⟩ f.layout f.pageSize).insert tuple = .ok (page, r) := by
  unfold appendPage at h
  dsimp only at h
  split at h
  · split at h
    · cases h
    · split at h
      · cases h
      · next hi =>
        cases h
        exact ⟨_, hi⟩
  · split at h
    · cases h
    · next hi =>
      split at h
      · cases h
      · cases h
        exact ⟨_, hi⟩

/-- A call on the page that a handle shows, which goes past locks and recency. -/
def Pool.edit (c : Pool) (h : Handle) (call : Page.Call) : Pool :=
  match c.cached[h.page]? with
  | some f =>
    if f.number = h.frame then
      { c with cached := c.cached.insert h.page { f with page := f.page.after call } }
    else { c with retired := c.retired.modify h.frame (·.after call) }
  | none => { c with retired := c.retired.modify h.frame (·.after call) }

theorem Pool.mark_eq_edit (c : Pool) (h : Handle) (txn : Option TxnId) :
    c.mark h txn = c.edit h (.mark txn) := rfl

namespace Engine

/-! ## Sound engines -/

/-- The cache keeps to its capacity, and its pages suit their places. -/
structure Sound (e : Engine) : Prop where
  tidy : e.pool.Tidy
  page : ∀ (p : PageId) (page : Page), e.pool.page? p = some page → e.store.Suits p page

variable {e e' : Engine} {p : PageId} {t : TxnId}

theorem sound_new (store : Store) {capacity : Nat} {policy : DeadlockPolicy} {pool : Pool}
    (h : Pool.new capacity policy = .ok pool) : Sound ⟨store, pool⟩ := by
  refine ⟨Pool.tidy_new h, fun p page hp => ?_⟩
  rw [Pool.page?_new h] at hp
  cases hp

/-- Each page was cached before, or it is new and suits its place. -/
theorem Sound.update (h : e.Sound) (hk : e.store.Keeps e'.store) (ht : e'.pool.Tidy)
    (hp : ∀ p page, e'.pool.page? p = some page →
      e.pool.page? p = some page ∨ e.store.Suits p page) : e'.Sound := by
  refine ⟨ht, fun p page hpage => ?_⟩
  rcases hp p page hpage with hold | hnew
  · exact (h.page p page hold).mono hk
  · exact hnew.mono hk

theorem Sound.visible (h : e.Sound) {page : Page} (hv : e.visible? p = some page) :
    e.store.Suits p page := by
  cases hp : e.pool.page? p with
  | none => exact Store.suits_of_stored ((visible_of_not_cached hp).symm.trans hv)
  | some page' =>
    rw [visible_of_cached hp] at hv
    cases hv
    exact h.page p page hp

theorem Sound.reload (h : e.Sound) (hr : Reload e e') (ht : e'.pool.Tidy) : e'.Sound := by
  refine h.update (Store.keeps_of_catalog (by rw [hr.store])) ht fun q page hq => ?_
  rcases hr.page q with hold | hnone | hstored
  · exact .inl (hold ▸ hq)
  · rw [hnone] at hq
    cases hq
  · exact .inr (Store.suits_of_stored (hstored ▸ hq))

theorem Sound.entered (h : e.Sound) {page : Page} (hn : Entered e e' p page)
    (hs : e.store.Suits p page) : e'.Sound := by
  refine h.update (Store.keeps_of_catalog (by rw [hn.store])) hn.tidy fun q page' hq => ?_
  by_cases hqp : q = p
  · subst hqp
    rw [hn.cached] at hq
    cases hq
    exact .inr hs
  · rcases hn.other q hqp with hold | ⟨-, hnone⟩
    · exact .inl (hold ▸ hq)
    · rw [hnone] at hq
      cases hq

/-- Locks, counters, latches and retired frames play no part in it. -/
theorem Sound.aside (h : e.Sound) {pool : Pool} (hcap : pool.capacity = e.pool.capacity)
    (hcached : pool.cached = e.pool.cached) (hrec : pool.recency = e.pool.recency) :
    Sound { e with pool } := by
  refine h.update (fun _ _ hf => hf) ⟨?_, fun p => ?_⟩ fun p page hp => .inl ?_
  · change pool.cached.size ≤ pool.capacity
    rw [hcached, hcap]
    exact h.tidy.size
  · change p ∈ pool.recency.order ↔ p ∈ pool.cached
    rw [hcached, hrec]
    exact h.tidy.order p
  · change pool.page? p = some page at hp
    rwa [Pool.page?, hcached] at hp

theorem Sound.withLocks (h : e.Sound) (locks : LockTable Purpose) : (e.withLocks locks).Sound :=
  h.aside rfl rfl rfl

/-! ## Turns -/

theorem Served.sound {purpose : Purpose} {a : Advance} (h : Served e t p purpose e' a) (he : e.Sound)
    (hsane : purpose.Sane p e.store) (hno : ∀ job, purpose ≠ .append job) : e'.Sound := by
  cases h with
  | held => exact he
  | failed h ht => exact he.reload h.reload ht
  | fetched h ht => exact he.reload h.reload ht
  | passed h ht => exact he.reload h.reload ht
  | overtaken => exact absurd rfl (hno _)
  | stranded => exact absurd rfl (hno _)
  | appended => exact absurd rfl (hno _)
  | changed h ht hp hd hn =>
    obtain ⟨hid, hs, hf⟩ := he.visible hp
    have hrow : ∀ job limit, purpose = .place job limit → job.tuple.Sound := by
      rintro job limit rfl
      exact hsane
    obtain ⟨hid', hs', hf'⟩ := hd.sound hrow hs hf
    refine (he.reload h.reload ht).entered hn ?_
    rw [h.store]
    exact Store.Suits.withDirtier ⟨hid'.trans hid, hs', hf'⟩ (some t)

/-- An append touches one file and, if the page is to enter the cache, the cache. -/
theorem serveAppend_cases (ht : e.pool.Tidy) (job : Placement) :
    ((e.serveAppend t p job).1.pool = e.pool ∧
      (e.serveAppend t p job).1.store.catalog = e.store.catalog) ∨
    ∃ volume filled r, job.installs = true ∧
      (Page.empty ⟨job.file.id, p.index⟩ job.file.layout job.file.pageSize).insert job.tuple =
        .ok (filled, r) ∧
      Entered { e with store := { e.store with volume } } (e.serveAppend t p job).1 p
        (filled.withDirtier (some t)) := by
  unfold serveAppend
  split
  · exact .inl ⟨rfl, rfl⟩
  · split
    · exact .inl ⟨rfl, rfl⟩
    · split
      · exact .inl ⟨rfl, rfl⟩
      · next volume page happend =>
        obtain ⟨r, hinsert⟩ := HeapFile.appendPage_eq_ok happend
        unfold enter
        split
        · next hin =>
          split
          · exact .inl ⟨rfl, rfl⟩
          · next pool f hpool =>
            obtain ⟨hrules, hfp, hcached, hother⟩ := Pool.install_eq_ok hpool
            refine .inr ⟨volume, page, r, hin, hinsert, rfl, hrules, ht.install hpool, ?_, hother⟩
            exact Pool.page?_eq_some.2 ⟨f, hcached, hfp⟩
        · exact .inl ⟨rfl, rfl⟩

theorem Sound.serveAppend (h : e.Sound) {job : Placement} (hs : (Purpose.append job).Sane p e.store) :
    (e.serveAppend t p job).1.Sound := by
  rcases serveAppend_cases h.tidy job with ⟨hpool, hcat⟩ | ⟨volume, filled, r, hin, hf, hn⟩
  · exact h.update (Store.keeps_of_catalog hcat) (hpool ▸ h.tidy) fun p page hp => .inl (hpool ▸ hp)
  · obtain ⟨htable, hfile⟩ := hs.2 hin
    obtain ⟨m, hm, hmf⟩ := Option.map_eq_some_iff.1 hfile
    have hsound := (Page.sound_empty _ _ _).insert hs.1 hf
    have hvolume : Sound { e with store := { e.store with volume } } :=
      h.update (fun _ _ hk => hk) h.tidy fun _ _ hp => .inl hp
    refine hvolume.entered hn (Store.Suits.withDirtier ?_ (some t))
    obtain ⟨slot, -, -, -, rfl⟩ := Page.insert_eq_ok hf
    refine ⟨PageId.eq_of_index htable.symm rfl, hsound, m, ?_, ?_, ?_⟩
    · exact htable ▸ hm
    · rw [hmf]
      rfl
    · rw [hmf]
      rfl

theorem Sound.serve (h : e.Sound) {purpose : Purpose} (hs : purpose.Sane p e.store) :
    (e.serve t p purpose).1.Sound := by
  cases purpose with
  | hold => exact h
  | fetch => exact (serveFetch_spec (t := t) h.tidy).sound h hs (by simp)
  | place job limit => exact (servePlace_spec (t := t) h.tidy).sound h hs (by simp)
  | append job => exact h.serveAppend hs
  | remove record => exact (serveRemove_spec (t := t) h.tidy).sound h hs (by simp)

theorem Sound.turn (h : e.Sound) (ticket : Ticket) {r : LockRequest Purpose} (which : Turn)
    (hs : r.purpose.Sane r.page e.store) : (e.turn ticket r which).1.Sound := by
  rcases turn_cases e ticket r which with ⟨-, he⟩ | ⟨-, he⟩ | ⟨-, he⟩
  · rw [he]
    exact (h.withLocks _).serve hs
  · rw [he]
    exact h.withLocks _
  · rw [he]
    exact (h.withLocks _).aside rfl rfl rfl

/-! ## Flushes and restores -/

theorem Sound.flush (h : e.Sound) (hf : e.flush p = .ok e') : e'.Sound := by
  rcases flush_eq_ok hf with ⟨rfl, -⟩ | ⟨f, s, hc, -, hs, rfl⟩
  · exact h
  · refine h.update (Store.keeps_of_catalog (Store.catalog_writePage hs)) (tidy_wrote hc h.tidy s)
      fun q page hq => ?_
    rw [page?_wrote] at hq
    split at hq
    · next hqp =>
      cases hq
      subst hqp
      exact .inr ((h.page q f.page (Pool.page?_eq_some.2 ⟨f, hc, rfl⟩)).withDirtier none)
    · exact .inl hq

theorem Sound.flushEach : ∀ (ps : List PageId) {e : Engine}, e.Sound → (e.flushEach ps).1.Sound
  | [], _, h => h
  | p :: ps, e, h => by
    rw [Engine.flushEach]
    split
    · exact h
    · next hf => exact (h.flush hf).flushEach ps

theorem Sound.discard (h : e.Sound) (p : PageId) : (e.discard p).1.Sound := by
  unfold Engine.discard
  split
  · exact h
  · next e1 hf =>
    have h1 := h.flush hf
    refine h1.update (fun _ _ hk => hk) (tidy_drop h1.tidy p) fun q page hq => ?_
    rw [page?_drop] at hq
    split at hq
    · cases hq
    · exact .inl hq

theorem Sound.restoreEach (h : e.Sound) (ps : List PageId) : (e.restoreEach ps).1.Sound :=
  h.reload (restored_restoreEach ps e).reload (tidy_restoreEach ps h.tidy)

theorem Sound.keepChanges (h : e.Sound) (t : TxnId) : (e.keepChanges t).engine.Sound := by
  have hflush := h.flushEach (e.pool.dirtyPages (· == t))
  unfold Engine.keepChanges flushTxn
  split
  · next hx => rwa [hx] at hflush
  · next hok =>
    rw [hok] at hflush
    exact hflush.withLocks _

theorem Sound.dropChanges (h : e.Sound) (t : TxnId) : (e.dropChanges t).engine.Sound :=
  (h.restoreEach (e.pool.dirtyPages (· == t))).withLocks _

/-- A call on the page that a handle shows leaves it in its place. -/
theorem Sound.edit (h : e.Sound) (handle : Handle) (call : Page.Call) :
    Sound { e with pool := e.pool.edit handle call } := by
  unfold Pool.edit
  split
  · next f hf =>
    split
    · refine h.update (fun _ _ hk => hk) (h.tidy.reframe hf _) fun q page hq => ?_
      change (e.pool.put handle.page { f with page := f.page.after call }).page? q = some page at hq
      rw [Pool.page?_put] at hq
      split at hq
      · next hqp =>
        cases hq
        subst hqp
        exact .inr ((h.page _ f.page (Pool.page?_eq_some.2 ⟨f, hf, rfl⟩)).after call)
      · exact .inl hq
    · exact h.aside rfl rfl rfl
  · exact h.aside rfl rfl rfl

/-! ## Acts -/

/-- Something that can happen to an engine. -/
inductive Act
  | turn (ticket : Ticket) (r : LockRequest Purpose) (which : Turn)
  | keep (t : TxnId)
  | drop (t : TxnId)
  | release (t : TxnId) (p : PageId)
  | flush (ps : List PageId)
  | discard (p : PageId)
  | edit (handle : Handle) (call : Page.Call)
  | aside (counters : Counters) (latched : List Handle)
  /-- whatever others do to files, faults and the catalog -/
  | storage (s : Store)

def act (e : Engine) : Act → Engine
  | .turn ticket r which => (e.turn ticket r which).1
  | .keep t => (e.keepChanges t).engine
  | .drop t => (e.dropChanges t).engine
  | .release t p => (e.release t p).1
  | .flush ps => (e.flushEach ps).1
  | .discard p => (e.discard p).1
  | .edit handle call => { e with pool := e.pool.edit handle call }
  | .aside counters latched => { e with pool := { e.pool with counters, latched } }
  | .storage s => { e with store := s }

def Act.Proper (s : Store) : Act → Prop
  | .turn _ r _ => r.purpose.Sane r.page s
  | .storage s' => s.Keeps s'
  | _ => True

/-- The engines that acts lead to. -/
inductive Reached (start : Engine) : Engine → Prop
  | start : Reached start start
  | act {e : Engine} (a : Act) (h : Reached start e) (ha : a.Proper e.store) :
      Reached start (e.act a)

theorem Sound.act (h : e.Sound) {a : Act} (ha : a.Proper e.store) : (e.act a).Sound := by
  cases a with
  | turn ticket r which => exact h.turn ticket which ha
  | keep t => exact h.keepChanges t
  | drop t => exact h.dropChanges t
  | release t p => exact h.withLocks _
  | flush ps => exact h.flushEach ps
  | discard p => exact h.discard p
  | edit handle call => exact h.edit handle call
  | aside counters latched => exact h.aside rfl rfl rfl
  | storage s => exact h.update ha h.tidy fun _ _ hp => .inl hp

theorem sound_of_reached {start : Engine} (hs : start.Sound) (he : Reached start e) : e.Sound := by
  induction he with
  | start => exact hs
  | act a _ ha ih => exact ih.act ha

/-! ## Tables keep their files -/

/-- A granted request touches no catalog, whatever it is for. -/
theorem catalog_serve (ht : e.pool.Tidy) (t : TxnId) (p : PageId) (purpose : Purpose) :
    (e.serve t p purpose).1.store.catalog = e.store.catalog := by
  cases purpose with
  | hold => rfl
  | fetch => exact (serveFetch_spec (t := t) ht).catalog
  | place job limit => exact (servePlace_spec (t := t) ht).catalog
  | append job =>
    rcases serveAppend_cases (t := t) ht job with ⟨-, hcat⟩ | ⟨volume, filled, r, -, -, hn⟩
    · exact hcat
    · rw [serve, hn.store]
  | remove record => exact (serveRemove_spec (t := t) ht).catalog

theorem catalog_turn (ht : e.pool.Tidy) (ticket : Ticket) (r : LockRequest Purpose) (which : Turn) :
    (e.turn ticket r which).1.store.catalog = e.store.catalog := by
  have htidy : (e.withLocks (e.pool.locks.request ticket r which).1).pool.Tidy := ⟨ht.size, ht.order⟩
  rcases turn_cases e ticket r which with ⟨-, he⟩ | ⟨-, he⟩ | ⟨-, he⟩
  · rw [he]
    exact catalog_serve htidy r.txn r.page r.purpose
  · rw [he]
    rfl
  · rw [he]
    rfl

theorem catalog_discard (e : Engine) (p : PageId) : (e.discard p).1.store.catalog = e.store.catalog := by
  unfold Engine.discard
  split
  · rfl
  · next hf =>
    have hflush := catalog_flush hf
    exact hflush

/-- Registered tables keep their files. -/
theorem keeps_of_proper (ht : e.pool.Tidy) {a : Act} (ha : a.Proper e.store) :
    e.store.Keeps (e.act a).store := by
  cases a with
  | turn ticket r which => exact Store.keeps_of_catalog (catalog_turn ht ticket r which)
  | keep t => exact Store.keeps_of_catalog (catalog_keepChanges e t)
  | drop t => exact Store.keeps_of_catalog (congrArg Store.catalog (store_dropChanges e t))
  | flush ps => exact Store.keeps_of_catalog (catalog_flushEach ps e)
  | discard p => exact Store.keeps_of_catalog (catalog_discard e p)
  | release t p => exact fun _ _ hf => hf
  | edit handle call => exact fun _ _ hf => hf
  | aside counters latched => exact fun _ _ hf => hf
  | storage s => exact ha

end Engine
end PageStore
