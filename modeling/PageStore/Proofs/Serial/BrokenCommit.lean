import PageStore.Proofs.Pool.WriteOrder
import PageStore.Proofs.Serial.Durable

/-!
# Commits that fail

A commit writes the pages of its transaction by ascending id. If a write fails, the
transaction is aborted: what has not been written is read again, and what has been
written stays. There is no log to undo it from. So a failed commit leaves storage with
the first pages of the transaction as it made them, up to the one whose write failed,
and all later pages as they were. The page whose write failed is as it was if the write
was refused; if it had begun, the first bytes of the page may be in its place, or all of
them. So nothing of the transaction is stored only if the very first write is refused.

That is so in every state that can be reached, whichever writes fail.

Results:
* `Sound.broken`: what storage holds once a write in a row of them has failed.
* `commit_stores_until_failure`: what it holds after a failed commit.
* `exists_half_commit`: it can be a part of what the transaction did.
-/
namespace PageStore

namespace Engine

variable {e e' : Engine} {t : TxnId} {x : Error}

/-- A commit of `t` fails with `x`: a write fails, and the changes are taken back. In
the meantime tables may begin or cease to fail. -/
def FailsToCommit (e : Engine) (t : TxnId) (x : Error) (e' : Engine) : Prop :=
  ∃ e1 s, Breaks e (e.pool.dirtyPages (· == t)) e1 x ∧ e1.store.SameFiles s ∧
    e' = (dropChanges { e1 with store := s } t).engine

theorem flushes_keepChanges (h : (e.keepChanges t).result = .error x) :
    Flushes e (e.pool.dirtyPages (· == t)) (e.keepChanges t).engine (.error x) := by
  have hflush := flushes_flushEach (e.pool.dirtyPages (· == t)) e
  unfold keepChanges at h ⊢
  cases hr : e.flushTxn t with
  | mk e1 r =>
    rw [flushTxn] at hr
    rw [hr] at hflush
    simp only [flushTxn, hr] at h ⊢
    cases r with
    | ok => cases h
    | error y =>
      cases h
      exact hflush

theorem failsToCommit_commit (h : (e.commit t).result = .error x) :
    FailsToCommit e t x (e.commit t).engine := by
  have hflush : ∀ y, (e.keepChanges t).result = .error y →
      Flushes e (e.pool.dirtyPages (· == t)) (e.keepChanges t).engine (.error y) :=
    fun _ => flushes_keepChanges
  unfold commit at h ⊢
  -- from here on it does not matter how the changes were kept
  generalize e.keepChanges t = kept at h hflush ⊢
  obtain ⟨e1, r, woken⟩ := kept
  cases r with
  | ok => cases h
  | error y =>
    obtain rfl : y = x := Except.error.inj h
    exact ⟨e1, e1.store, (hflush y rfl).breaks, .refl _, rfl⟩

theorem Sound.ids_cached (h : e.Sound) {ps : List PageId}
    (hp : ∀ p ∈ ps, ∃ page, e.pool.page? p = some page) :
    (ps.filterMap e.pool.page?).map Page.id = ps := by
  have hid : ∀ p ∈ ps, (e.pool.page? p).map Page.id = some p := by
    intro p hmem
    obtain ⟨page, hpage⟩ := hp p hmem
    rw [hpage, Option.map_some, (h.page p page hpage).1]
  rw [List.map_filterMap, List.filterMap_congr hid, List.filterMap_some]

/-- Cached pages that are written one after another are found in storage as they are
in the cache, and all other pages as they were. -/
theorem Sound.written (h : e.Sound) (hc : e.store.catalog.Sound) {ps : List PageId} (hn : ps.Nodup)
    (hp : ∀ p ∈ ps, ∃ page, e.pool.page? p = some page) {s : Store}
    (hw : e.store.Writes (ps.filterMap e.pool.page?) s) :
    s.catalog.Sound ∧ (∀ u, s.file? u = e.store.file? u) ∧
    (∀ p ∈ ps, ∃ page, e.pool.page? p = some page ∧ s.Holds p page ∧
      s.contents p = some page.grid) ∧
    ∀ p, p ∉ ps → s.bytes? p = e.store.bytes? p ∧ s.contents p = e.store.contents p := by
  have hid := h.ids_cached hp
  have hsuits : ∀ page ∈ ps.filterMap e.pool.page?, page.Sound ∧ e.store.Fits page := by
    intro page hpage
    obtain ⟨p, -, hp⟩ := List.mem_filterMap.1 hpage
    exact (h.page p page hp).2
  obtain ⟨hcatalog, hfile, hall, hother⟩ := hw.spec hc hsuits (hid.symm ▸ hn)
  rw [hid] at hother
  refine ⟨hcatalog, hfile, fun p hmem => ?_, fun p hmem => ?_⟩
  · obtain ⟨page, hpage⟩ := hp p hmem
    have hk : e.store.Keeps s := fun u _ hf => (hfile u).trans hf
    obtain ⟨rfl, hs, hf⟩ := (h.page p page hpage).mono hk
    obtain ⟨hb, hg⟩ := hall page (List.mem_filterMap.2 ⟨_, hmem, hpage⟩)
    refine ⟨page, hpage, Store.holds_of_bytes hcatalog hs hf hb, ?_⟩
    rw [Store.contents, hg, Option.map_some, Page.grid_asStored]
  · exact ⟨(hother p hmem).1, Store.contents_congr (hother p hmem).2⟩

/-- The pages of a list are stored as they are in the cache. The place of the page `q`, whose
write failed in the store `s`, holds as much of `page` as this write had put there, nothing if
it was refused; all other pages are stored as they were. -/
structure StoredUpTo (e : Engine) (ps : List PageId) (q : PageId) (page : Page) (s s' : Store) :
    Prop where
  listed : ∀ p ∈ ps, ∃ page, e.pool.page? p = some page ∧ s'.Holds p page ∧
    s'.contents p = some page.grid
  broken : ∃ n, s'.bytes? q = Store.brokenOff n page.image (e.store.bytes? q) ∧
    (n = 0 ∨ (s.writePage page).isOk = true)
  other : ∀ p, p ∉ ps → p ≠ q →
    s'.bytes? p = e.store.bytes? p ∧ s'.contents p = e.store.contents p

theorem StoredUpTo.sameFiles {ps : List PageId} {q : PageId} {page : Page} {s s' s'' : Store}
    (h : StoredUpTo e ps q page s s') (hs : s'.SameFiles s'') : StoredUpTo e ps q page s s'' := by
  have hcontents : ∀ p, s''.contents p = s'.contents p := fun p => Store.contents_congr (hs.page p)
  refine ⟨fun p hp => ?_, ?_, fun p hp hne => ?_⟩
  · obtain ⟨page, hpage, ⟨bytes, hencode, hbytes⟩, hgrid⟩ := h.listed p hp
    exact ⟨page, hpage, ⟨bytes, hencode, (hs.bytes p).trans hbytes⟩, (hcontents p).trans hgrid⟩
  · rw [hs.bytes]
    exact h.broken
  · rw [hs.bytes, hcontents]
    exact h.other p hp hne

/-- Cached pages are written one after another, and then the write of another one fails. -/
theorem Sound.broken (h : e.Sound) (hc : e.store.catalog.Sound) {ps : List PageId} (hn : ps.Nodup)
    (hp : ∀ p ∈ ps, ∃ page, e.pool.page? p = some page) {q : PageId} {page : Page} (hnot : q ∉ ps)
    (hq : e.pool.page? q = some page) {s s' : Store}
    (hw : e.store.Writes (ps.filterMap e.pool.page?) s) (hx : s.FailsToWrite page s' x) :
    StoredUpTo e ps q page s s' := by
  obtain ⟨hcatalog, hfile, hlisted, hother⟩ := h.written hc hn hp hw
  have hk : e.store.Keeps s := fun u _ hf => (hfile u).trans hf
  obtain ⟨rfl, hs, hf⟩ := (h.page q page hq).mono hk
  obtain ⟨-, ⟨n, hplace, hbegun⟩, hrest⟩ := hx.spec hcatalog hs hf
  refine ⟨fun p hmem => ?_, ⟨n, ?_, hbegun⟩, fun p hmem hne => ?_⟩
  · obtain ⟨old, hold, ⟨bytes, hencode, hbytes⟩, hgrid⟩ := hlisted p hmem
    obtain ⟨hb, hpage⟩ := hrest p fun h => hnot (h ▸ hmem)
    exact ⟨old, hold, ⟨bytes, hencode, hb.trans hbytes⟩, (Store.contents_congr hpage).trans hgrid⟩
  · rw [hplace, (hother page.id hnot).1]
  · obtain ⟨hb, hpage⟩ := hrest p hne
    obtain ⟨hb', hcontents⟩ := hother p hmem
    exact ⟨hb.trans hb', (Store.contents_congr hpage).trans hcontents⟩

/-! ## Two tables, one of which fails -/

/-- Next to the sample table, one like it in a file of its own. -/
def pairStore : Store :=
  ⟨World.sampleStore.volume.insert "more" SparseFile.empty,
    World.sampleStore.catalog.insert (.numbered 2)
      ⟨{ World.sampleFile with id := .numbered 2, name := "more" }, .none⟩⟩

theorem sound_pairStore : pairStore.catalog.Sound := by
  have hf : HeapFile.make (.numbered 2) "more" (.ofTypes [.int]) 13 .extendEmpty =
      .ok { World.sampleFile with id := .numbered 2, name := "more" } := rfl
  have hr : World.sampleStore.catalog.register
      ⟨{ World.sampleFile with id := .numbered 2, name := "more" }, .none⟩ = .ok pairStore.catalog := by
    rw [Catalog.register, if_neg (by decide +kernel)]
    rfl
  refine Catalog.sound_register World.sound_sampleStore hf ?_ hr
  intro t m hm
  rw [(World.mount_sampleStore hm).2]
  decide

/-- A transaction inserts a row into each of the tables; then writes of the second fail. -/
theorem exists_broken_commit : ∃ e, Reached ⟨pairStore, World.samplePool⟩ e ∧
    e.store.catalog.Sound ∧
    e.pool.dirtyPages (· == 1) = [⟨.numbered 1, 0⟩, ⟨.numbered 2, 0⟩] ∧
    (e.commit 1).result = .error (.io .unwritable) ∧
    e.store.contents ⟨.numbered 1, 0⟩ = some [none, none] ∧
    (e.commit 1).engine.store.contents ⟨.numbered 1, 0⟩ = some [some [.int 5], none] := by
  have hrun : (((World.fresh pairStore World.samplePool).run
      [.start 1 0 (.insert (.numbered 1) (World.sampleRow 5)), .turn 1 .first,
        .start 1 1 (.insert (.numbered 2) (World.sampleRow 6)), .turn 1 .first,
        .fail (.numbered 2) ⟨true, []⟩]).any fun w =>
      decide (w.engine.pool.dirtyPages (· == 1) = [⟨.numbered 1, 0⟩, ⟨.numbered 2, 0⟩] ∧
        (w.engine.commit 1).result = .error (.io .unwritable) ∧
        w.engine.store.contents ⟨.numbered 1, 0⟩ = some [none, none] ∧
        (w.engine.commit 1).engine.store.contents ⟨.numbered 1, 0⟩ =
          some [some [.int 5], none])) = true := by decide +kernel
  obtain ⟨w, hw, h⟩ := (Option.any_eq_true _ _).1 hrun
  have h0 : (World.fresh pairStore World.samplePool).Coherent := World.coherent_fresh sound_pairStore
    (show Pool.new 2 .cycleDetection = .ok World.samplePool from rfl)
  have hreach : World.Reachable (fun _ => True) (World.fresh pairStore World.samplePool) w :=
    World.reachable_of_run _ .start (fun _ _ => trivial) hw
  exact ⟨w.engine, World.reached_of_reachable h0 hreach,
    (World.coherent_of_reachable h0 hreach).engine.catalog, of_decide_eq_true h⟩

/-! ## What a failed commit stores -/

/-- A commit fails with the error of the first write that fails, by ascending page id.
Then storage is what the writes before it made of it, and what the failing one has left. If no
two tables share a file, every page before the one that failed is stored as the transaction has
made it, the place of that one holds as many of the bytes that the transaction gave it as had
been written, none if the write was refused, and every other page has the bytes that it had. -/
theorem commit_stores_until_failure {store : Store} {capacity : Nat} {policy : DeadlockPolicy}
    {pool : Pool} (hp : Pool.new capacity policy = .ok pool) (he : Reached ⟨store, pool⟩ e) :
    ((e.commit t).result = .error x → FailsToCommit e t x (e.commit t).engine) ∧
    ∀ e', FailsToCommit e t x e' →
      ∃ before q after page s s', e.pool.dirtyPages (· == t) = before ++ q :: after ∧
        (before ++ q :: after).Pairwise (fun p r => compare p r = .lt) ∧
        e.pool.page? q = some page ∧
        e.store.Writes (before.filterMap e.pool.page?) s ∧ s.FailsToWrite page s' x ∧
        s'.SameFiles e'.store ∧
        (e.store.catalog.Sound → StoredUpTo e before q page s e'.store) := by
  refine ⟨failsToCommit_commit, ?_⟩
  rintro e' ⟨e1, s1, hbreaks, hs, rfl⟩
  have hsound := sound_of_reached (sound_new store hp) he
  have hascending := e.pool.ascending_dirtyPages (· == t)
  have hn := e.pool.nodup_dirtyPages (· == t)
  have hcached : ∀ p ∈ e.pool.dirtyPages (· == t), ∃ page, e.pool.page? p = some page :=
    fun _ => Pool.cached_of_dirty
  obtain ⟨-, before, q, after, page, s, hps, hpage, hwritten, hfail⟩ :=
    hbreaks.written hn fun _ => Pool.not_clean_of_dirty
  rw [hps] at hascending hn hcached
  obtain ⟨hbefore, -, hdisjoint⟩ := List.nodup_append.1 hn
  -- taking the changes back writes nothing
  rw [store_dropChanges]
  refine ⟨before, q, after, page, s, e1.store, hps, hascending, hpage, hwritten.writes, hfail, hs,
    fun hc => StoredUpTo.sameFiles ?_ hs⟩
  exact hsound.broken hc hbefore (fun p hmem => hcached p (List.mem_append_left _ hmem))
    (fun hmem => hdisjoint q hmem q List.mem_cons_self rfl) hpage hwritten.writes hfail

/-- The commit stores the page of the first table, and changes none but the two that its
transaction has changed. -/
theorem commit_stores_until_failure_pairStore : ∃ e, Reached ⟨pairStore, World.samplePool⟩ e ∧
    (e.commit 1).result = .error (.io .unwritable) ∧
    (e.commit 1).engine.store.contents ⟨.numbered 1, 0⟩ = some [some [.int 5], none] ∧
    ∀ p ≠ ⟨.numbered 1, 0⟩, p ≠ ⟨.numbered 2, 0⟩ →
      (e.commit 1).engine.store.bytes? p = e.store.bytes? p := by
  obtain ⟨e, he, hc, hdirty, hresult, -, hafter⟩ := exists_broken_commit
  have hp : Pool.new 2 .cycleDetection = .ok World.samplePool := rfl
  obtain ⟨hfails, hbroken⟩ := commit_stores_until_failure (t := 1) (x := .io .unwritable) hp he
  obtain ⟨before, q, after, page, s, s', hsplit, -, -, -, -, -, hstored⟩ := hbroken _ (hfails hresult)
  rw [hdirty] at hsplit
  have hlisted : ∀ p, p ∈ before ++ q :: after ↔ p = ⟨.numbered 1, 0⟩ ∨ p = ⟨.numbered 2, 0⟩ := by
    intro p
    rw [← hsplit]
    simp
  refine ⟨e, he, hresult, hafter, fun p h1 h2 => ((hstored hc).other p (fun hmem => ?_) ?_).1⟩
  · exact ((hlisted p).1 (List.mem_append_left _ hmem)).elim h1 h2
  · rintro rfl
    exact ((hlisted p).1 (by simp)).elim h1 h2

/-- A failed commit can leave in storage a part of what its transaction did. -/
theorem exists_half_commit :
    ¬∀ (store : Store) (capacity : Nat) (policy : DeadlockPolicy) (pool : Pool) (e : Engine),
      store.catalog.Sound → Pool.new capacity policy = .ok pool → Reached ⟨store, pool⟩ e →
      ∀ (t : TxnId) (x : Error), (e.commit t).result = .error x →
        ∀ p, (e.commit t).engine.store.contents p = e.store.contents p := by
  intro hall
  obtain ⟨e, he, -, -, hresult, hbefore, hafter⟩ := exists_broken_commit
  have hsame := hall _ 2 .cycleDetection _ e sound_pairStore rfl he 1 _ hresult ⟨.numbered 1, 0⟩
  rw [hbefore, hafter] at hsame
  exact absurd hsame (by decide)

end Engine
end PageStore
