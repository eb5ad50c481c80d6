import PageStore.Pool.Run
import PageStore.Proofs.Disk.Pages

/-!
# How pages come into the cache and leave it

Nothing but clean pages leave the cache to make room, and what comes in is the
stored page. `Turnover` says that this is all that happened between two states
of an engine: what a lock protects and what storage holds is as before.

Results:
* `load_turnover`, `load_eq_ok`: loading a page is such a turnover, and yields
  the page that is visible there.
* `tidy_load`, `Tidy.install`: the cache stays within its capacity, and the
  order of use lists exactly the cached pages.
-/
namespace PageStore

namespace Pool

/-- The page is not cached, or its cached copy is clean. -/
def IsClean (c : Pool) (p : PageId) : Prop := ∀ page, c.page? p = some page → page.dirtier = none

/-- The cache keeps to its capacity, and the order of use lists what is cached. -/
structure Tidy (c : Pool) : Prop where
  size : c.cached.size ≤ c.capacity
  order : ∀ p, p ∈ c.recency.order ↔ p ∈ c.cached

/-- What no use of the cache changes. -/
structure SameRules (c c' : Pool) : Prop where
  locks : c'.locks = c.locks
  capacity : c'.capacity = c.capacity
  latched : c'.latched = c.latched

theorem SameRules.refl (c : Pool) : SameRules c c := ⟨rfl, rfl, rfl⟩

theorem SameRules.trans {a b c : Pool} (h1 : SameRules a b) (h2 : SameRules b c) : SameRules a c :=
  ⟨h2.locks.trans h1.locks, h2.capacity.trans h1.capacity, h2.latched.trans h1.latched⟩

variable {c c' : Pool} {p q : PageId}

theorem page?_eq_some {page : Page} :
    c.page? p = some page ↔ ∃ f, c.cached[p]? = some f ∧ f.page = page :=
  Option.map_eq_some_iff

theorem page?_eq_none : c.page? p = none ↔ c.cached[p]? = none := Option.map_eq_none_iff

theorem isCached_iff : c.isCached p = true ↔ p ∈ c.cached := Std.TreeMap.contains_iff_mem

theorem isDirty_eq_false {page : Page} : page.isDirty = false ↔ page.dirtier = none := by
  unfold Page.isDirty
  cases page.dirtier <;> simp

theorem getElem?_erase (m : Std.TreeMap PageId Frame) (p q : PageId) :
    (m.erase p)[q]? = if q = p then none else m[q]? := by
  rw [Std.TreeMap.getElem?_erase]
  simp only [Std.LawfulEqCmp.compare_eq_iff_eq, eq_comm (a := p)]

theorem size_erase_lt {m : Std.TreeMap PageId Frame} (h : p ∈ m) : (m.erase p).size < m.size := by
  rw [Std.TreeMap.size_erase, if_pos (Std.TreeMap.contains_iff_mem.2 h)]
  have : 0 < m.size := by
    rw [← Std.TreeMap.length_keys]
    exact List.length_pos_of_mem (Std.TreeMap.mem_keys.2 h)
  omega

theorem size_insert_of_mem {m : Std.TreeMap PageId Frame} {f : Frame} (h : p ∈ m) :
    (m.insert p f).size = m.size := by
  rw [Std.TreeMap.size_insert, if_pos (Std.TreeMap.contains_iff_mem.2 h)]

/-! ## New pools -/

theorem page?_new {capacity : Nat} {policy : DeadlockPolicy} (h : new capacity policy = .ok c)
    (p : PageId) : c.page? p = none := by
  unfold new at h
  split at h
  · cases h
  · cases h
    simp [page?]

theorem tidy_new {capacity : Nat} {policy : DeadlockPolicy} (h : new capacity policy = .ok c) :
    c.Tidy := by
  unfold new at h
  split at h
  · cases h
  · cases h
    exact ⟨by simp, by simp [Recency.empty]⟩

/-! ## Making room -/

/-- An eviction drops one cached page, a clean one. -/
theorem evict_eq_ok (h : c.evict = .ok c') :
    SameRules c c' ∧ ∃ p f, c.cached[p]? = some f ∧ f.page.dirtier = none ∧
      c'.cached = c.cached.erase p ∧ c'.recency = c.recency.forget p := by
  unfold evict at h
  split at h
  · next p r hr =>
    cases h
    obtain ⟨p', hp, he⟩ := Option.map_eq_some_iff.1 hr
    obtain ⟨rfl, rfl⟩ := Prod.mk.inj he
    obtain ⟨f, hf, hclean, -⟩ := isEvictable_iff.1 (List.find?_some hp)
    exact ⟨⟨rfl, rfl, rfl⟩, p', f, hf, isDirty_eq_false.1 hclean, rfl, rfl⟩
  · cases h

/-- Something can be evicted as long as some cached page is clean and not latched. -/
theorem evict_isOk (ht : c.Tidy) {f : Frame} (hf : c.cached[p]? = some f)
    (hc : f.page.dirtier = none) (hl : ⟨p, f.number⟩ ∉ c.latched) : ∃ c', c.evict = .ok c' := by
  have he : c.isEvictable p = true :=
    isEvictable_iff.2 ⟨f, hf, isDirty_eq_false.2 hc, hl⟩
  have hmem : p ∈ c.recency.order :=
    (ht.order p).2 (Std.TreeMap.mem_iff_isSome_getElem?.2 (by rw [hf]; rfl))
  unfold evict
  split
  · exact ⟨_, rfl⟩
  · next hn =>
    have := Recency.evict_eq_none_iff.1 hn p hmem
    rw [he] at this
    cases this

theorem Tidy.evict (ht : c.Tidy) (h : c.evict = .ok c') : c'.Tidy ∧ c'.cached.size < c'.capacity := by
  obtain ⟨hr, p, f, hf, -, hcached, hrec⟩ := evict_eq_ok h
  have hp : p ∈ c.cached := Std.TreeMap.mem_iff_isSome_getElem?.2 (by rw [hf]; rfl)
  have hlt := size_erase_lt hp
  have hsize := ht.size
  rw [← hcached] at hlt
  rw [hr.capacity]
  refine ⟨⟨by rw [hr.capacity]; omega, ?_⟩, by omega⟩
  intro q
  rw [hcached, hrec, Recency.mem_forget, ht.order, Std.TreeMap.mem_erase]
  simp only [ne_eq, Std.LawfulEqCmp.compare_eq_iff_eq, eq_comm (a := p)]
  exact and_comm

theorem room_cases (h : c.room p = .ok c') :
    (c' = c ∧ (p ∈ c.cached ∨ c.cached.size < c.capacity)) ∨ (p ∉ c.cached ∧ c.evict = .ok c') := by
  unfold room at h
  split at h
  · next hr =>
    cases h
    rw [isCached_iff] at hr
    exact .inl ⟨rfl, hr⟩
  · next hr =>
    rw [isCached_iff, not_or] at hr
    exact .inr ⟨hr.1, h⟩

/-- Making room drops at most clean pages. -/
theorem page?_room (h : c.room p = .ok c') (q : PageId) :
    c'.page? q = c.page? q ∨ c.IsClean q ∧ c'.page? q = none := by
  rcases room_cases h with ⟨rfl, -⟩ | ⟨-, he⟩
  · exact .inl rfl
  · obtain ⟨-, r, f, hf, hclean, hcached, -⟩ := evict_eq_ok he
    simp only [page?, hcached, getElem?_erase]
    by_cases hq : q = r
    · subst hq
      refine .inr ⟨?_, by simp⟩
      intro page hp
      obtain ⟨f', hf', rfl⟩ := page?_eq_some.1 hp
      rw [hf] at hf'
      cases hf'
      exact hclean
    · exact .inl (by rw [if_neg hq])

theorem sameRules_room (h : c.room p = .ok c') : SameRules c c' := by
  rcases room_cases h with ⟨rfl, -⟩ | ⟨-, he⟩
  · exact .refl _
  · exact (evict_eq_ok he).1

theorem Tidy.room (ht : c.Tidy) (h : c.room p = .ok c') :
    c'.Tidy ∧ (p ∈ c'.cached ∨ c'.cached.size < c'.capacity) := by
  rcases room_cases h with ⟨rfl, hr⟩ | ⟨-, he⟩
  · exact ⟨ht, hr⟩
  · exact ⟨(ht.evict he).1, .inr (ht.evict he).2⟩

/-! ## Putting a page in -/

theorem page?_put (c : Pool) (p : PageId) (f : Frame) (q : PageId) :
    (c.put p f).page? q = if q = p then some f.page else c.page? q := by
  rw [page?, cached_put]
  split <;> rfl

theorem Tidy.put (ht : c.Tidy) {f : Frame} (h : p ∈ c.cached ∨ c.cached.size < c.capacity) :
    (c.put p f).Tidy := by
  have hs := ht.size
  refine ⟨?_, ?_⟩
  · change (c.cached.insert p f).size ≤ c.capacity
    rcases h with hp | hlt
    · rw [size_insert_of_mem hp]
      exact hs
    · have := @Std.TreeMap.size_insert_le _ _ _ c.cached _ p f
      omega
  · intro q
    change q ∈ (c.recency.touch p).order ↔ q ∈ c.cached.insert p f
    rw [Recency.mem_touch, ht.order, Std.TreeMap.mem_insert]
    simp only [Std.LawfulEqCmp.compare_eq_iff_eq, eq_comm (a := p)]
    exact or_comm

/-- A page may change in its frame. -/
theorem Tidy.reframe (ht : c.Tidy) {f : Frame} (hf : c.cached[p]? = some f) (f' : Frame) :
    Tidy { c with cached := c.cached.insert p f' } := by
  have hmem : p ∈ c.cached := Std.TreeMap.mem_iff_isSome_getElem?.2 (by rw [hf]; rfl)
  refine ⟨?_, ?_⟩
  · change (c.cached.insert p f').size ≤ _
    rw [size_insert_of_mem hmem]
    exact ht.size
  · intro q
    change q ∈ c.recency.order ↔ q ∈ c.cached.insert p f'
    rw [ht.order, Std.TreeMap.mem_insert]
    simp only [Std.LawfulEqCmp.compare_eq_iff_eq]
    refine ⟨.inr, ?_⟩
    rintro (rfl | hq)
    · exact hmem
    · exact hq

/-- Bringing a page in fails only if there is no room and nothing to evict. -/
theorem install_eq_error {page : Page} {x : Error} (h : c.install p page = .error x) :
    x = .noEvictablePage c.cached.size := by
  unfold install room evict at h
  split at h
  · next hr =>
    split at hr
    · cases hr
    · split at hr
      · cases hr
      · cases hr
        cases h
        rfl
  · cases h

/-- Installing a page puts it in and drops at most clean pages. -/
theorem install_eq_ok {page : Page} {f : Frame} (h : c.install p page = .ok (c', f)) :
    SameRules c c' ∧ f.page = page ∧ c'.cached[p]? = some f ∧
      ∀ q, q ≠ p → c'.page? q = c.page? q ∨ c.IsClean q ∧ c'.page? q = none := by
  unfold install at h
  split at h
  · cases h
  · next c1 hr =>
    obtain ⟨rfl, rfl⟩ := Prod.mk.inj (Except.ok.inj h)
    have hrules := sameRules_room hr
    refine ⟨⟨hrules.locks, hrules.capacity, hrules.latched⟩, rfl, ?_, ?_⟩
    · change (c1.put p _).cached[p]? = _
      rw [cached_put, if_pos rfl]
    · intro q hq
      have hp := page?_put c1 p ⟨c1.nextFrame, page⟩ q
      rw [if_neg hq] at hp
      have := page?_room hr q
      rw [← hp] at this
      exact this

theorem Tidy.install (ht : c.Tidy) {page : Page} {f : Frame} (h : c.install p page = .ok (c', f)) :
    c'.Tidy := by
  unfold Pool.install at h
  split at h
  · cases h
  · next c1 hr =>
    obtain ⟨rfl, rfl⟩ := Prod.mk.inj (Except.ok.inj h)
    obtain ⟨ht1, hroom⟩ := ht.room hr
    have := ht1.put (f := ⟨c1.nextFrame, page⟩) hroom
    exact ⟨this.size, this.order⟩

theorem install_isOk (page : Page) (h : ∃ c', c.room p = .ok c') :
    ∃ c' f, c.install p page = .ok (c', f) := by
  obtain ⟨c1, hr⟩ := h
  unfold install
  rw [hr]
  exact ⟨_, _, rfl⟩

end Pool

namespace Engine

/-- The page as a reader would find it: the cached copy, or else the stored page. -/
def visible? (e : Engine) (p : PageId) : Option Page := e.pool.page? p <|> e.store.page? p

/-- Nothing happened but that clean pages came into the cache and left it. -/
structure Turnover (e e' : Engine) : Prop where
  store : e'.store = e.store
  rules : Pool.SameRules e.pool e'.pool
  page : ∀ p, e'.pool.page? p = e.pool.page? p ∨
    e.pool.IsClean p ∧ (e'.pool.page? p = none ∨ e'.pool.page? p = e.store.page? p)

theorem Turnover.refl (e : Engine) : Turnover e e := ⟨rfl, .refl _, fun _ => .inl rfl⟩

theorem Turnover.trans {a b c : Engine} (h1 : Turnover a b) (h2 : Turnover b c) : Turnover a c := by
  refine ⟨h2.store.trans h1.store, h1.rules.trans h2.rules, ?_⟩
  intro p
  rcases h2.page p with hp | ⟨hclean, hp⟩
  · rcases h1.page p with hq | hq
    · exact .inl (hp.trans hq)
    · rw [hp]
      exact .inr hq
  · rw [h1.store] at hp
    rcases h1.page p with hq | ⟨hq, -⟩
    · exact .inr ⟨fun page he => hclean page (hq.trans he), hp⟩
    · exact .inr ⟨hq, hp⟩

/-- Every page is cached as before, or not any more, or as it is stored. -/
structure Reload (e e' : Engine) : Prop where
  store : e'.store = e.store
  rules : Pool.SameRules e.pool e'.pool
  page : ∀ p, e'.pool.page? p = e.pool.page? p ∨ e'.pool.page? p = none ∨
    e'.pool.page? p = e.store.page? p

theorem Turnover.reload {e e' : Engine} (h : Turnover e e') : Reload e e' := by
  refine ⟨h.store, h.rules, ?_⟩
  intro p
  rcases h.page p with he | ⟨-, he⟩
  · exact .inl he
  · exact .inr he

/-- A dirty page is not touched. -/
theorem Turnover.dirty {e e' : Engine} (h : Turnover e e') {p : PageId} {page : Page}
    (hp : e.pool.page? p = some page) (hd : page.dirtier ≠ none) : e'.pool.page? p = some page := by
  rcases h.page p with he | ⟨hclean, -⟩
  · rw [he, hp]
  · exact absurd (hclean page hp) hd

/-- And none becomes dirty. -/
theorem Turnover.of_dirty {e e' : Engine} (hc : e.store.catalog.Sound) (h : Turnover e e') {p : PageId}
    {page : Page} (hp : e'.pool.page? p = some page) (hd : page.dirtier ≠ none) :
    e.pool.page? p = some page := by
  rcases h.page p with he | ⟨-, hn | hs⟩
  · rw [← he, hp]
  · rw [hn] at hp; cases hp
  · rw [hs] at hp
    exact absurd (Store.sound_page? hc hp).2.1 hd

variable {e e' : Engine} {p : PageId}

/-- A loaded page stands in the cache, and is the one that was visible before. -/
theorem load_eq_ok {f : Frame} (h : e.load p = (e', .ok f)) :
    e'.pool.cached[p]? = some f ∧ e.visible? p = some f.page := by
  unfold load at h
  split at h
  · next pool f' hh =>
    obtain ⟨rfl, hf⟩ := Prod.mk.inj h
    cases hf
    obtain ⟨f'', hf, he⟩ := Option.map_eq_some_iff.1 hh
    obtain ⟨rfl, rfl⟩ := Prod.mk.inj he
    exact ⟨hf, by rw [visible?, Pool.page?_eq_some.2 ⟨_, hf, rfl⟩]; rfl⟩
  · next hh =>
    have hn : e.pool.page? p = none := by
      rw [Pool.page?_eq_none]
      simpa [Pool.hit] using hh
    dsimp only at h
    split at h
    · cases h
    · next page hpage =>
      split at h
      · cases h
      · next pool f' hi =>
        obtain ⟨rfl, hf⟩ := Prod.mk.inj h
        cases hf
        obtain ⟨-, rfl, hc, -⟩ := Pool.install_eq_ok hi
        exact ⟨hc, by rw [visible?, hn, Store.page?_of_readPage hpage]; rfl⟩

theorem load_turnover {r : Except Error Frame} (h : e.load p = (e', r)) : Turnover e e' := by
  unfold load at h
  split at h
  · next pool f hh =>
    obtain ⟨rfl, -⟩ := Prod.mk.inj h
    obtain ⟨f', -, he⟩ := Option.map_eq_some_iff.1 hh
    obtain ⟨rfl, -⟩ := Prod.mk.inj he
    exact ⟨rfl, ⟨rfl, rfl, rfl⟩, fun _ => .inl rfl⟩
  · next hh =>
    have hn : e.pool.page? p = none := by
      rw [Pool.page?_eq_none]
      simpa [Pool.hit] using hh
    dsimp only at h
    split at h
    · obtain ⟨rfl, -⟩ := Prod.mk.inj h
      exact ⟨rfl, ⟨rfl, rfl, rfl⟩, fun _ => .inl rfl⟩
    · next page hpage =>
      split at h
      · obtain ⟨rfl, -⟩ := Prod.mk.inj h
        exact ⟨rfl, ⟨rfl, rfl, rfl⟩, fun _ => .inl rfl⟩
      · next pool f' hi =>
        obtain ⟨rfl, -⟩ := Prod.mk.inj h
        obtain ⟨hrules, hf, hc, hother⟩ := Pool.install_eq_ok hi
        refine ⟨rfl, ⟨hrules.locks, hrules.capacity, hrules.latched⟩, ?_⟩
        intro q
        by_cases hq : q = p
        · subst hq
          refine .inr ⟨fun page he => (by rw [hn] at he; cases he), .inr ?_⟩
          rw [Store.page?_of_readPage hpage, ← hf]
          exact Pool.page?_eq_some.2 ⟨_, hc, rfl⟩
        · rcases hother q hq with he | ⟨hclean, he⟩
          · exact .inl he
          · exact .inr ⟨hclean, .inl he⟩

theorem tidy_load (ht : e.pool.Tidy) (p : PageId) : (e.load p).1.pool.Tidy := by
  unfold load
  split
  · next pool f hh =>
    obtain ⟨f', hf, he⟩ := Option.map_eq_some_iff.1 hh
    obtain ⟨rfl, -⟩ := Prod.mk.inj he
    refine ⟨ht.size, ?_⟩
    intro q
    have hp : p ∈ e.pool.cached := Std.TreeMap.mem_iff_isSome_getElem?.2 (by rw [hf]; rfl)
    change q ∈ (e.pool.recency.touch p).order ↔ _
    rw [Recency.mem_touch, ht.order]
    refine ⟨?_, .inl⟩
    rintro (h | rfl)
    · exact h
    · exact hp
  · dsimp only
    split
    · exact ⟨ht.size, ht.order⟩
    · split
      · exact ⟨ht.size, ht.order⟩
      · next hi =>
        have ht' : { e.pool with counters := e.pool.counters.addMiss.addRead }.Tidy :=
          ⟨ht.size, ht.order⟩
        exact ht'.install hi

end Engine
end PageStore
