import PageStore.Proofs.Locking.Ownership
import PageStore.Proofs.Pool.Turnover

/-!
# Cache and storage agree

An engine is `Backed` if every cached page is a sound page of its table that
storage has too, and clean pages show what is stored. It is `Coherent` if
besides whoever made a page dirty owns it. So in a coherent engine a dirty page
has one dirtier, and nobody else can see it under a lock; in a backed one
anybody may have changed it.

The content of a page is what a reader finds there: the grid of the cached
copy, or else of the stored page.

Results:
* `Backed.reload`: pages may be dropped, and read again, at any time.
* `content_turnover`: clean pages that come and go leave every page's content
  as it was.
* `Backed.modify`: a page may be changed, if it is dirty then.
* `Backed.put`: a page may be written over the stored one, or after the last.
* `Backed.sameFiles`: the faults of storage may change.
* `Coherent.of_backed`: an engine stays coherent if it is backed and no page
  became dirty.
* `Coherent.modify`: an owner may change a page.
* `Coherent.withLocks`: locks may change as long as owners of dirty pages stay.
-/
namespace PageStore.Engine

structure Backed (e : Engine) : Prop where
  catalog : e.store.catalog.Sound
  tidy : e.pool.Tidy
  /-- a cached page is a sound page of its table -/
  page : ∀ (p : PageId) (page : Page), e.pool.page? p = some page →
    page.id = p ∧ page.Sound ∧ e.store.Fits page
  /-- storage has it too, with the same content if it is clean -/
  stored : ∀ (p : PageId) (page : Page), e.pool.page? p = some page →
    ∃ old, e.store.page? p = some old ∧ (page.dirtier = none → old.grid = page.grid)

structure Coherent (e : Engine) : Prop extends Backed e where
  locks : e.pool.locks.Safe
  /-- whoever made a cached page dirty owns it -/
  owned : ∀ (p : PageId) (page : Page) (t : TxnId), e.pool.page? p = some page →
    page.dirtier = some t → e.pool.locks.Owns t p

/-- What a reader finds on a page. -/
def content? (e : Engine) (p : PageId) : Option Grid := (e.visible? p).map Page.grid

variable {e e' : Engine} {p : PageId}

/-- A new pool over any storage whose catalog is sound. -/
theorem backed_new {store : Store} (hs : store.catalog.Sound) {capacity : Nat}
    {policy : DeadlockPolicy} {pool : Pool} (hp : Pool.new capacity policy = .ok pool) :
    Backed ⟨store, pool⟩ := by
  refine ⟨hs, Pool.tidy_new hp, fun p page h => ?_, fun p page h => ?_⟩ <;>
  · rw [Pool.page?_new hp] at h
    cases h

theorem visible_of_cached {page : Page} (h : e.pool.page? p = some page) : e.visible? p = some page := by
  rw [visible?, h]
  rfl

theorem visible_of_not_cached (h : e.pool.page? p = none) : e.visible? p = e.store.page? p := by
  rw [visible?, h]
  rfl

theorem content_of_cached {page : Page} (h : e.pool.page? p = some page) :
    e.content? p = some page.grid := by
  rw [content?, visible_of_cached h]
  rfl

/-- A visible page is a sound page of its table, and storage has one there. -/
theorem Backed.visible (hb : Backed e) {page : Page} (h : e.visible? p = some page) :
    page.id = p ∧ page.Sound ∧ e.store.Fits page ∧ ∃ old, e.store.page? p = some old := by
  cases hp : e.pool.page? p with
  | none =>
    rw [visible_of_not_cached hp] at h
    obtain ⟨hid, -, hs, hf, -⟩ := Store.sound_page? hb.catalog h
    exact ⟨hid, hs, hf, page, h⟩
  | some page' =>
    rw [visible_of_cached hp] at h
    cases h
    obtain ⟨hid, hs, hf⟩ := hb.page p page hp
    obtain ⟨old, ho, -⟩ := hb.stored p page hp
    exact ⟨hid, hs, hf, old, ho⟩

/-- What is not dirty shows what is stored. -/
theorem Backed.content_of_clean (hb : Backed e) (h : e.pool.IsClean p) :
    e.content? p = (e.store.page? p).map Page.grid := by
  cases hp : e.pool.page? p with
  | none => rw [content?, visible_of_not_cached hp]
  | some page =>
    obtain ⟨old, ho, hg⟩ := hb.stored p page hp
    rw [content_of_cached hp, ho, Option.map_some, hg (h page hp)]

/-- A page after the last one is not cached. -/
theorem Backed.not_cached (hb : Backed e) (h : e.store.pages p.table ≤ p.index) :
    e.pool.page? p = none ∧ e.store.page? p = none := by
  have hs : e.store.page? p = none := by
    cases hp : e.store.page? p with
    | none => rfl
    | some page =>
      obtain ⟨-, -, -, -, hlt⟩ := Store.sound_page? hb.catalog hp
      omega
  refine ⟨?_, hs⟩
  cases hp : e.pool.page? p with
  | none => rfl
  | some page =>
    obtain ⟨old, ho, -⟩ := hb.stored p page hp
    rw [hs] at ho
    cases ho

/-- An engine stays coherent as long as no page becomes dirty. -/
theorem Coherent.of_backed (hc : Coherent e) (hb : Backed e') (hl : e'.pool.locks = e.pool.locks)
    (hd : ∀ p page t, e'.pool.page? p = some page → page.dirtier = some t →
      e.pool.page? p = some page) : Coherent e' := by
  refine ⟨hb, hl ▸ hc.locks, fun p page t hp ht => ?_⟩
  rw [hl]
  exact hc.owned p page t (hd p page t hp ht) ht

/-! ## Pages that come and go -/

theorem Backed.reload (hb : Backed e) (h : Reload e e') (ht : e'.pool.Tidy) : Backed e' := by
  have hpage : ∀ q page, e'.pool.page? q = some page →
      e.pool.page? q = some page ∨ e.store.page? q = some page := by
    intro q page hq
    rcases h.page q with he | he | he
    · exact .inl (he ▸ hq)
    · rw [he] at hq; cases hq
    · exact .inr (he ▸ hq)
  refine ⟨?_, ht, ?_, ?_⟩
  · rw [h.store]; exact hb.catalog
  · intro q page hq
    rw [h.store]
    rcases hpage q page hq with hq | hq
    · exact hb.page q page hq
    · obtain ⟨hid, -, hs, hf, -⟩ := Store.sound_page? hb.catalog hq
      exact ⟨hid, hs, hf⟩
  · intro q page hq
    rw [h.store]
    rcases hpage q page hq with hq | hq
    · exact hb.stored q page hq
    · exact ⟨page, hq, fun _ => rfl⟩

theorem Coherent.reload (hc : Coherent e) (h : Reload e e') (ht : e'.pool.Tidy) : Coherent e' := by
  refine hc.of_backed (hc.toBacked.reload h ht) h.rules.locks fun q page t hq hd => ?_
  rcases h.page q with he | he | he
  · exact he ▸ hq
  · rw [he] at hq; cases hq
  · obtain ⟨-, hn, -⟩ := Store.sound_page? hc.catalog (he ▸ hq)
    rw [hd] at hn
    cases hn

/-- A page that came or went shows what it did, or was clean and shows what is stored. -/
theorem content_or_stored (hs : e'.store = e.store)
    (h : e'.pool.page? p = e.pool.page? p ∨
      e.pool.IsClean p ∧ (e'.pool.page? p = none ∨ e'.pool.page? p = e.store.page? p)) :
    e'.content? p = e.content? p ∨ e.pool.IsClean p ∧ e'.content? p = e.store.contents p := by
  rcases h with hsame | ⟨hclean, hnone | hstored⟩
  · exact .inl (by rw [content?, content?, visible?, visible?, hsame, hs])
  · exact .inr ⟨hclean, by rw [content?, visible_of_not_cached hnone, hs, Store.contents]⟩
  · refine .inr ⟨hclean, ?_⟩
    rw [content?, visible?, hstored, hs, Store.contents]
    cases e.store.page? p <;> rfl

theorem content_turnover (hb : Backed e) (h : Turnover e e') (q : PageId) :
    e'.content? q = e.content? q := by
  rcases content_or_stored h.store (h.page q) with hsame | ⟨hclean, hstored⟩
  · exact hsame
  · exact hstored.trans (hb.content_of_clean hclean).symm

/-- Storage is the same, and every page shows what it did. -/
structure Quiet (e e' : Engine) : Prop where
  store : e'.store = e.store
  content : ∀ p, e'.content? p = e.content? p

theorem Quiet.refl (e : Engine) : Quiet e e := ⟨rfl, fun _ => rfl⟩

theorem Quiet.trans {a b c : Engine} (h1 : Quiet a b) (h2 : Quiet b c) : Quiet a c :=
  ⟨h2.store.trans h1.store, fun p => (h2.content p).trans (h1.content p)⟩

theorem Turnover.quiet (hb : Backed e) (h : Turnover e e') : Quiet e e' :=
  ⟨h.store, content_turnover hb h⟩

/-! ## Changing a page -/

section
variable (hs : e'.store = e.store) {page : Page} (hp : e'.pool.page? p = some page)
  (hother : ∀ q, q ≠ p → e'.pool.page? q = e.pool.page? q ∨ e.pool.IsClean q ∧ e'.pool.page? q = none)

include hp hother in
/-- The cache holds the page as changed, and all others as before. -/
theorem cached_modify {q : PageId} {page' : Page} (hq : e'.pool.page? q = some page') :
    q = p ∧ page' = page ∨ e.pool.page? q = some page' := by
  by_cases hqp : q = p
  · subst hqp
    rw [hp] at hq
    exact .inl ⟨rfl, (Option.some.inj hq).symm⟩
  · rcases hother q hqp with he | ⟨-, he⟩
    · exact .inr (he ▸ hq)
    · rw [he] at hq; cases hq

variable (hsound : page.id = p ∧ page.Sound ∧ e.store.Fits page)
  (hold : ∃ old, e.store.page? p = some old)

include hs hp hother hsound hold

/-- A sound page may be put in place of a page that storage has, if it is dirty;
clean pages may make room for it. -/
theorem Backed.modify (hb : Backed e) (ht : e'.pool.Tidy) (hd : page.dirtier ≠ none) : Backed e' := by
  refine ⟨?_, ht, ?_, ?_⟩
  · rw [hs]; exact hb.catalog
  · intro q page' hq
    rw [hs]
    rcases cached_modify hp hother hq with ⟨rfl, rfl⟩ | hq
    · exact hsound
    · exact hb.page q page' hq
  · intro q page' hq
    rw [hs]
    rcases cached_modify hp hother hq with ⟨rfl, rfl⟩ | hq
    · obtain ⟨old, ho⟩ := hold
      exact ⟨old, ho, fun hn => absurd hn hd⟩
    · exact hb.stored q page' hq

/-- An owner may put it there. -/
theorem Coherent.modify (hc : Coherent e) (hr : Pool.SameRules e.pool e'.pool) (ht : e'.pool.Tidy)
    {t : TxnId} (hd : page.dirtier = some t) (hown : e.pool.locks.Owns t p) : Coherent e' := by
  refine ⟨hc.toBacked.modify hs hp hother hsound hold ht (by rw [hd]; simp), ?_, ?_⟩
  · rw [hr.locks]; exact hc.locks
  · intro q page' u hq hu
    rw [hr.locks]
    rcases cached_modify hp hother hq with ⟨rfl, rfl⟩ | hq
    · rw [hd] at hu
      cases hu
      exact hown
    · exact hc.owned q page' u hq hu

end

theorem content_modify (hb : Backed e) (hs : e'.store = e.store)
    (hother : ∀ q, q ≠ p → e'.pool.page? q = e.pool.page? q ∨
      e.pool.IsClean q ∧ e'.pool.page? q = none) {q : PageId} (hq : q ≠ p) :
    e'.content? q = e.content? q := by
  rcases content_or_stored hs ((hother q hq).imp id (.imp id .inl)) with hsame | ⟨hclean, hstored⟩
  · exact hsame
  · exact hstored.trans (hb.content_of_clean hclean).symm

/-! ## Writing a page -/

section
variable {m : Mount} {page : Page}
  (hm : e.store.catalog[page.id.table]? = some m) (hp : page.Sound)
  (hl : page.layout = m.file.layout) (hsize : page.size = m.file.pageSize)
  (hi : page.id.index ≤ e.store.pages page.id.table) (hs : e'.store = e.store.put m page)
  (ht : e'.pool.Tidy)
  (hcached : e'.pool.page? page.id = none ∨
    ∃ page', e'.pool.page? page.id = some page' ∧ page'.id = page.id ∧ page'.Sound ∧
      e.store.Fits page' ∧ page'.grid = page.grid ∧ page'.dirtier = none)
  (hother : ∀ q, q ≠ page.id → e'.pool.page? q = e.pool.page? q)

include hm hp hl hsize hi hs ht hcached hother

/-- The engine after a page was written to storage, if the cache holds it at
all, then as it was written. -/
theorem Backed.put (hb : Backed e) : Backed e' := by
  have hstored : ∀ q, e'.store.page? q = if q = page.id then some page.asStored else e.store.page? q := by
    intro q
    rw [hs]
    exact Store.page?_put hb.catalog hm hp hsize hi hl q
  have hpage : ∀ q page', e'.pool.page? q = some page' →
      (q = page.id ∧ page'.id = page.id ∧ page'.Sound ∧ e.store.Fits page' ∧
        page'.grid = page.grid) ∨ q ≠ page.id ∧ e.pool.page? q = some page' := by
    intro q page' hq
    by_cases hqp : q = page.id
    · subst hqp
      rcases hcached with hn | ⟨page'', hq', h1, h2, h3, h4, -⟩
      · rw [hn] at hq; cases hq
      · rw [hq'] at hq
        cases hq
        exact .inl ⟨rfl, h1, h2, h3, h4⟩
    · exact .inr ⟨hqp, (hother q hqp) ▸ hq⟩
  have hfits : ∀ page', e.store.Fits page' → e'.store.Fits page' := by
    intro page' h
    rw [hs]
    exact h
  refine ⟨?_, ht, ?_, ?_⟩
  · rw [hs]; exact hb.catalog
  · intro q page' hq
    rcases hpage q page' hq with ⟨rfl, h1, h2, h3, -⟩ | ⟨-, hq⟩
    · exact ⟨h1, h2, hfits _ h3⟩
    · obtain ⟨h1, h2, h3⟩ := hb.page q page' hq
      exact ⟨h1, h2, hfits _ h3⟩
  · intro q page' hq
    rw [hstored]
    rcases hpage q page' hq with ⟨rfl, -, -, -, hg⟩ | ⟨hne, hq⟩
    · exact ⟨page.asStored, if_pos rfl, fun _ => (Page.grid_asStored page).trans hg.symm⟩
    · rw [if_neg hne]
      exact hb.stored q page' hq

end

/-! ## Changing locks and faults -/

theorem Coherent.withLocks (hc : Coherent e) {locks : LockTable Purpose} (hs : locks.Safe)
    (hown : ∀ p page t, e.pool.page? p = some page → page.dirtier = some t →
      e.pool.locks.Owns t p → locks.Owns t p) : Coherent (e.withLocks locks) := by
  refine ⟨⟨hc.catalog, ⟨hc.tidy.size, hc.tidy.order⟩, hc.page, hc.stored⟩, hs, ?_⟩
  intro p page t hp hd
  exact hown p page t hp hd (hc.owned p page t hp hd)

theorem Backed.sameFiles (hb : Backed e) {s : Store} (h : Store.SameFiles e.store s) :
    Backed { e with store := s } := by
  refine ⟨h.sound hb.catalog, hb.tidy, ?_, ?_⟩
  · intro p page hp
    obtain ⟨hid, hs, hf⟩ := hb.page p page hp
    exact ⟨hid, hs, h.fits hf⟩
  · intro p page hp
    rw [h.page]
    exact hb.stored p page hp

theorem Coherent.sameFiles (hc : Coherent e) {s : Store} (h : Store.SameFiles e.store s) :
    Coherent { e with store := s } :=
  ⟨hc.toBacked.sameFiles h, hc.locks, hc.owned⟩

section
variable {pool : Pool} (hcap : pool.capacity = e.pool.capacity)
  (hcached : pool.cached = e.pool.cached) (hrec : pool.recency = e.pool.recency)

include hcap hcached hrec

/-- Locks, counters, latches and retired frames play no part in it. -/
theorem Backed.aside (hb : Backed e) : Backed { e with pool } := by
  have hpage : ∀ p, pool.page? p = e.pool.page? p := by
    intro p
    rw [Pool.page?, Pool.page?, hcached]
  refine ⟨hb.catalog, ⟨?_, ?_⟩, ?_, ?_⟩
  · change pool.cached.size ≤ pool.capacity
    rw [hcached, hcap]
    exact hb.tidy.size
  · intro p
    change p ∈ pool.recency.order ↔ p ∈ pool.cached
    rw [hcached, hrec]
    exact hb.tidy.order p
  · intro p page hp
    exact hb.page p page ((hpage p).symm.trans hp)
  · intro p page hp
    exact hb.stored p page ((hpage p).symm.trans hp)

theorem Coherent.aside (hc : Coherent e) (hl : pool.locks = e.pool.locks) : Coherent { e with pool } := by
  refine hc.of_backed (hc.toBacked.aside hcap hcached hrec) hl fun p page t hp _ => ?_
  change pool.page? p = some page at hp
  rwa [Pool.page?, hcached] at hp

end

end PageStore.Engine
