import PageStore.Proofs.Pool.Serving

/-!
# What others do is not seen by an owner

Between two states of an engine it was `Calm` for a transaction if the locks it
owns, the pages it dirtied, and everything that is stored or shown under its
locks are as before. Pages without content are left out: a transaction may own
the place of a page that does not exist yet.

Results:
* `Turnover.calm`, `calm_request`: loading pages and asking for locks is calm
  for everybody.
* `Entered.calm`, `calm_stow`: changing or adding a page is calm for everybody
  who does not own it.
* `calm_keepChanges`, `calm_dropChanges`: so is the end of another transaction.
-/
namespace PageStore

namespace Engine

structure Calm (e e' : Engine) (t : TxnId) : Prop where
  capacity : e'.pool.capacity = e.pool.capacity
  file : ∀ u, e'.store.file? u = e.store.file? u
  owns : ∀ p, e.pool.locks.Owns t p → e'.pool.locks.Owns t p
  kept : ∀ (p : PageId) (page : Page), e.pool.page? p = some page → page.dirtier = some t →
    e'.pool.page? p = some page
  none_new : ∀ (p : PageId) (page : Page), e'.pool.page? p = some page → page.dirtier = some t →
    e.pool.page? p = some page
  stored : ∀ (p : PageId) (g : Grid), e.pool.locks.Owns t p → e.store.contents p = some g →
    e'.store.contents p = some g
  content : ∀ (p : PageId) (g : Grid), e.pool.locks.Owns t p → e.content? p = some g →
    e'.content? p = some g

variable {e e' : Engine} {t u : TxnId} {p : PageId}

theorem Calm.refl (e : Engine) (t : TxnId) : Calm e e t :=
  ⟨rfl, fun _ => rfl, fun _ h => h, fun _ _ h _ => h, fun _ _ h _ => h, fun _ _ _ h => h,
    fun _ _ _ h => h⟩

theorem Calm.trans {a b c : Engine} (h1 : Calm a b t) (h2 : Calm b c t) : Calm a c t := by
  refine ⟨h2.capacity.trans h1.capacity, ?_, ?_, ?_, ?_, ?_, ?_⟩
  · intro u
    exact (h2.file u).trans (h1.file u)
  · intro p ho
    exact h2.owns p (h1.owns p ho)
  · intro p page hp hd
    exact h2.kept p page (h1.kept p page hp hd) hd
  · intro p page hp hd
    exact h1.none_new p page (h2.none_new p page hp hd) hd
  · intro p g ho hg
    exact h2.stored p g (h1.owns p ho) (h1.stored p g ho hg)
  · intro p g ho hg
    exact h2.content p g (h1.owns p ho) (h1.content p g ho hg)

/-- Counters, latches and retired frames do not matter. -/
theorem Calm.aside {pool : Pool} (h : Calm e e' t) (hl : pool.locks = e'.pool.locks)
    (hcap : pool.capacity = e'.pool.capacity) (hcached : pool.cached = e'.pool.cached) :
    Calm e { e' with pool } t := by
  have hpage : ∀ p, pool.page? p = e'.pool.page? p := by
    intro p
    rw [Pool.page?, Pool.page?, hcached]
  refine ⟨hcap.trans h.capacity, h.file, ?_, ?_, ?_, h.stored, ?_⟩
  · intro p ho
    exact hl ▸ h.owns p ho
  · intro p page hp hd
    exact (hpage p).trans (h.kept p page hp hd)
  · intro p page hp hd
    exact h.none_new p page ((hpage p).symm.trans hp) hd
  · intro p g ho hg
    have := h.content p g ho hg
    unfold content? visible? at this ⊢
    dsimp only
    rw [hpage]
    exact this

theorem calm_sameFiles {s : Store} (h : Store.SameFiles e.store s) (t : TxnId) :
    Calm e { e with store := s } t := by
  refine ⟨rfl, h.file, fun _ h => h, fun _ _ h _ => h, fun _ _ h _ => h, ?_, ?_⟩
  · intro p g _ hg
    rw [Store.contents_congr (h.page p)]
    exact hg
  · intro p g _ hg
    unfold content? visible? at hg ⊢
    dsimp only
    rw [h.page p]
    exact hg

/-- Nothing but locks changed, and not those that `t` owns. -/
theorem calm_withLocks {locks : LockTable Purpose}
    (h : ∀ p, e.pool.locks.Owns t p → locks.Owns t p) : Calm e (e.withLocks locks) t :=
  ⟨rfl, fun _ => rfl, h, fun _ _ h _ => h, fun _ _ h _ => h, fun _ _ _ h => h, fun _ _ _ h => h⟩

theorem calm_request (e : Engine) (ticket : Ticket) (r : LockRequest Purpose) (which : Turn)
    (t : TxnId) : Calm e (e.withLocks (e.pool.locks.request ticket r which).1) t :=
  calm_withLocks fun _ h => h.request ticket r which

theorem Turnover.calm (hc : Coherent e) (h : Turnover e e') (t : TxnId) : Calm e e' t := by
  refine ⟨h.rules.capacity, ?_, ?_, ?_, ?_, ?_, ?_⟩
  · intro u
    rw [h.store]
  · intro p ho
    rw [h.rules.locks]
    exact ho
  · intro p page hp hd
    exact h.dirty hp (by rw [hd]; simp)
  · intro p page hp hd
    exact h.of_dirty hc.catalog hp (by rw [hd]; simp)
  · intro p g _ hg
    rw [h.store]
    exact hg
  · intro p g _ hg
    rw [content_turnover hc.toBacked h]
    exact hg

/-- A page that another transaction owns entered the cache, dirty. -/
theorem Entered.calm (hc : Coherent e) {page : Page} (h : Entered e e' p (page.withDirtier (some t)))
    (hown : e.pool.locks.Owns t p) (hu : u ≠ t) : Calm e e' u := by
  have hne : ∀ q, e.pool.locks.Owns u q → q ≠ p := by
    rintro q ho rfl
    exact hu (hown.eq hc.locks ho)
  refine ⟨h.rules.capacity, ?_, ?_, ?_, ?_, ?_, ?_⟩
  · intro v
    rw [h.store]
  · intro q ho
    rw [h.rules.locks]
    exact ho
  · intro q page' hq hd
    rcases h.other q (hne q (hc.owned q page' u hq hd)) with he | ⟨hclean, -⟩
    · exact he.trans hq
    · rw [hclean page' hq] at hd
      cases hd
  · intro q page' hq hd
    by_cases hqp : q = p
    · subst hqp
      rw [h.cached] at hq
      cases hq
      exact absurd (Option.some.inj hd).symm hu
    · rcases h.other q hqp with he | ⟨-, he⟩
      · exact he ▸ hq
      · rw [he] at hq
        cases hq
  · intro q g _ hg
    rw [h.store]
    exact hg
  · intro q g ho hg
    rw [content_modify hc.toBacked h.store h.other (hne q ho)]
    exact hg

/-- A page was written after the last one. -/
theorem calm_stow {m : Mount} {page : Page} (hn : e.pool.page? p = none ∧ e.store.page? p = none)
    (hstored : ∀ q, q ≠ p → (e.stow m page).store.page? q = e.store.page? q) (t : TxnId) :
    Calm e (e.stow m page) t := by
  refine ⟨rfl, fun _ => rfl, fun _ h => h, fun _ _ h _ => h, fun _ _ h _ => h, ?_, ?_⟩
  · intro q g _ hg
    have hq : q ≠ p := by
      rintro rfl
      rw [Store.contents, hn.2] at hg
      cases hg
    rw [Store.contents_congr (hstored q hq)]
    exact hg
  · intro q g _ hg
    have hq : q ≠ p := by
      rintro rfl
      rw [content?, visible?, hn.1, hn.2] at hg
      cases hg
    rw [content?, visible?, hstored q hq]
    exact hg

theorem calm_releaseAll (hs : e.pool.locks.Safe) (hu : u ≠ t) : Calm e (e.releaseAll t).1 u :=
  calm_withLocks fun _ h => h.releaseAll hs hu

/-- What is dirty for `t` is not owned by anybody else. -/
theorem not_mem_dirtyPages (hc : Coherent e) (hu : u ≠ t) (ho : e.pool.locks.Owns u p) :
    p ∉ e.pool.dirtyPages (· == t) := by
  intro hmem
  obtain ⟨page, v, hp, hd, hv⟩ := Pool.mem_dirtyPages.1 hmem
  obtain rfl : v = t := by simpa using hv
  exact hu ((hc.owned p page v hp hd).eq hc.locks ho)

theorem calm_keepChanges (hc : Coherent e) (hok : (e.keepChanges t).result = .ok ()) (hu : u ≠ t) :
    Calm e (e.keepChanges t).engine u := by
  obtain ⟨e1, hf, hunmoved, -, he⟩ := keepChanges_of_ok hc hok
  rw [he]
  have hs : e1.pool.locks.Safe := by
    rw [hf.rules.locks]
    exact hc.locks
  refine Calm.trans ?_ (calm_releaseAll hs hu)
  refine ⟨hf.rules.capacity, ?_, ?_, ?_, ?_, ?_, ?_⟩
  · intro v
    rw [Store.file?, Store.file?, hf.catalog]
  · intro p ho
    rw [hf.rules.locks]
    exact ho
  · intro p page hp hd
    exact (hunmoved p (not_mem_dirtyPages hc hu (hc.owned p page u hp hd))).cached.trans hp
  · intro p page hp hd
    rcases hf.page p with hm | ⟨page', hw⟩
    · exact hm.cached ▸ hp
    · rw [hw.cached] at hp
      cases hp
      cases hd
  · intro p g ho hg
    rw [Store.contents_congr (hunmoved p (not_mem_dirtyPages hc hu ho)).stored]
    exact hg
  · intro p g _ hg
    rw [hf.content]
    exact hg

theorem calm_dropChanges (hc : Coherent e) (hu : u ≠ t) : Calm e (e.dropChanges t).engine u := by
  obtain ⟨-, e1, hr, -, he⟩ := dropChanges_spec hc t
  rw [he]
  have hs : e1.pool.locks.Safe := by
    rw [hr.reload.rules.locks]
    exact hc.locks
  refine Calm.trans ?_ (calm_releaseAll hs hu)
  refine ⟨hr.reload.rules.capacity, ?_, ?_, ?_, ?_, ?_, ?_⟩
  · intro v
    rw [hr.reload.store]
  · intro p ho
    rw [hr.reload.rules.locks]
    exact ho
  · intro p page hp hd
    exact (hr.other p (not_mem_dirtyPages hc hu (hc.owned p page u hp hd))).trans hp
  · intro p page hp hd
    by_cases hmem : p ∈ e.pool.dirtyPages (· == t)
    · rcases hr.listed p hmem with hn | hl
      · rw [hn] at hp
        cases hp
      · rw [hl] at hp
        rw [(Store.sound_page? hc.catalog hp).2.1] at hd
        cases hd
    · exact (hr.other p hmem) ▸ hp
  · intro p g _ hg
    rw [hr.reload.store]
    exact hg
  · intro p g ho hg
    rw [content?, visible?, hr.other p (not_mem_dirtyPages hc hu ho), hr.reload.store]
    exact hg

end Engine
end PageStore
