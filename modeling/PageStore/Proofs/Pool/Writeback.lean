import PageStore.Proofs.Pool.Coherent

/-!
# What write-backs and restores do

A flush turns dirty pages into clean ones, each written before it is clean; one
that stops midway has done so for some of them. A restore leaves each page it
is given as it is stored, or out of the cache.

Results:
* `wrote_spec`: a page that is written becomes clean, and nothing else happens.
* `flushEach_spec`: a flush, whole or broken off, keeps the engine backed
  and changes nothing but pages it wrote.
* `Coherent.flushed`: it keeps the engine coherent as well.
* `flushEach_isOk`: if no table refuses writes, every listed page is clean
  afterwards.
* `discard_spec`, `restoreEach_spec`: the same for the other two.
* `keepChanges_spec`, `dropChanges_spec`: after its end, a transaction has
  neither dirty pages nor locks; a failed commit keeps both.
* `keepChanges_flushed`, `store_dropChanges`: what they do to storage.
-/
namespace PageStore

theorem Pool.mem_dirtyPages {c : Pool} {of : TxnId → Bool} {p : PageId} :
    p ∈ c.dirtyPages of ↔ ∃ page t, c.page? p = some page ∧ page.dirtier = some t ∧ of t = true := by
  simp only [dirtyPages, List.mem_map, List.mem_filter, page?_eq_some]
  constructor
  · rintro ⟨⟨q, f⟩, ⟨hm, hd⟩, rfl⟩
    obtain ⟨t, ht, ho⟩ := (Option.any_eq_true _ _).1 hd
    exact ⟨f.page, t, ⟨f, Std.TreeMap.mem_toList_iff_getElem?_eq_some.1 hm, rfl⟩, ht, ho⟩
  · rintro ⟨page, t, ⟨f, hf, rfl⟩, hd, ho⟩
    refine ⟨(p, f), ⟨Std.TreeMap.mem_toList_iff_getElem?_eq_some.2 hf, ?_⟩, rfl⟩
    rw [hd]
    exact ho

theorem Store.catalog_writePage {s s' : Store} {page : Page} (h : s.writePage page = .ok s') :
    s'.catalog = s.catalog := by
  unfold writePage at h
  split at h
  · cases h
  · split at h
    · cases h
    · split at h
      · cases h
      · cases h
        rfl

namespace Engine

variable {e e' : Engine} {p : PageId}

/-! ## Writing back -/

/-- Nothing happened to the page, in the cache or in storage. -/
structure Unmoved (e e' : Engine) (p : PageId) : Prop where
  cached : e'.pool.page? p = e.pool.page? p
  bytes : e'.store.bytes? p = e.store.bytes? p
  stored : e'.store.page? p = e.store.page? p

/-- A dirty page was written, and is clean now. -/
structure WrittenBack (e e' : Engine) (p : PageId) (page : Page) : Prop where
  before : e.pool.page? p = some page
  dirty : page.dirtier ≠ none
  cached : e'.pool.page? p = some (page.withDirtier none)
  bytes : e'.store.bytes? p = some page.image
  stored : e'.store.page? p = some page.asStored

/-- Some dirty pages were written back, and nothing else happened. -/
structure Flushed (e e' : Engine) : Prop where
  catalog : e'.store.catalog = e.store.catalog
  rules : Pool.SameRules e.pool e'.pool
  pages : ∀ t, e'.store.pages t = e.store.pages t
  page : ∀ p, Unmoved e e' p ∨ ∃ page, WrittenBack e e' p page

theorem Unmoved.refl (e : Engine) (p : PageId) : Unmoved e e p := ⟨rfl, rfl, rfl⟩

theorem Unmoved.trans {a b c : Engine} {p : PageId} (h1 : Unmoved a b p) (h2 : Unmoved b c p) :
    Unmoved a c p :=
  ⟨h2.cached.trans h1.cached, h2.bytes.trans h1.bytes, h2.stored.trans h1.stored⟩

theorem Flushed.refl (e : Engine) : Flushed e e :=
  ⟨rfl, .refl _, fun _ => rfl, fun p => .inl (.refl e p)⟩

/-- A page that was written back is clean, so it is not written a second time. -/
theorem Flushed.trans {a b c : Engine} (h1 : Flushed a b) (h2 : Flushed b c) : Flushed a c := by
  refine ⟨h2.catalog.trans h1.catalog, h1.rules.trans h2.rules, ?_, ?_⟩
  · intro t
    exact (h2.pages t).trans (h1.pages t)
  · intro p
    rcases h1.page p with hu | ⟨page, hw⟩
    · rcases h2.page p with hv | ⟨page, hv⟩
      · exact .inl (hu.trans hv)
      · exact .inr ⟨page, hu.cached ▸ hv.before, hv.dirty, hv.cached, hv.bytes, hv.stored⟩
    · rcases h2.page p with hv | ⟨page', hv⟩
      · exact .inr ⟨page, hw.before, hw.dirty, hv.cached.trans hw.cached, hv.bytes.trans hw.bytes,
          hv.stored.trans hw.stored⟩
      · have := hv.before
        rw [hw.cached] at this
        cases this
        exact absurd rfl hv.dirty

theorem Flushed.isClean (h : Flushed e e') (hp : e.pool.IsClean p) : e'.pool.IsClean p := by
  intro page hpage
  rcases h.page p with hu | ⟨page', hw⟩
  · exact hp page (hu.cached ▸ hpage)
  · rw [hw.cached] at hpage
    cases hpage
    rfl

/-- A flush shows in nobody's view of a page. -/
theorem Flushed.content (h : Flushed e e') (p : PageId) : e'.content? p = e.content? p := by
  rcases h.page p with hu | ⟨page, hw⟩
  · rw [content?, content?, visible?, visible?, hu.cached, hu.stored]
  · rw [content_of_cached hw.before, content_of_cached hw.cached]
    rfl

/-- The engine after the page of a frame was written; the frame is clean now. -/
def wrote (e : Engine) (s : Store) (p : PageId) (f : Frame) : Engine :=
  ⟨s, { e.pool with
    cached := e.pool.cached.insert p { f with page := f.page.withDirtier none }
    counters := e.pool.counters.addWrite }⟩

theorem page?_wrote (e : Engine) (s : Store) (p : PageId) (f : Frame) (q : PageId) :
    (e.wrote s p f).pool.page? q =
      if q = p then some (f.page.withDirtier none) else e.pool.page? q := by
  rw [Pool.page?, wrote, Std.TreeMap.getElem?_insert]
  simp only [Std.LawfulEqCmp.compare_eq_iff_eq, eq_comm (a := p)]
  split <;> rfl

section
variable {f : Frame} (hf : e.pool.cached[p]? = some f)

include hf

theorem tidy_wrote (ht : e.pool.Tidy) (s : Store) : (e.wrote s p f).pool.Tidy := by
  have h := ht.reframe hf { f with page := f.page.withDirtier none }
  exact ⟨h.size, h.order⟩

/-- A dirty page that is written is clean then, and nothing else happens. -/
theorem wrote_spec (hb : Backed e) (hd : f.page.dirtier ≠ none) {s : Store}
    (hs : e.store.writePage f.page = .ok s) :
    Backed (e.wrote s p f) ∧ Flushed e (e.wrote s p f) ∧ WrittenBack e (e.wrote s p f) p f.page ∧
      ∀ q, q ≠ p → Unmoved e (e.wrote s p f) q := by
  have hp : e.pool.page? p = some f.page := Pool.page?_eq_some.2 ⟨f, hf, rfl⟩
  obtain ⟨hid, hsound, m', hm', hl, -⟩ := hb.page p _ hp
  obtain ⟨old, hold, -⟩ := hb.stored p _ hp
  have hlt := (Store.sound_page? hb.catalog hold).2.2.2.2
  obtain ⟨m, hm, -, hsize, hi, rfl⟩ := (Store.writePage_eq_ok_iff hb.catalog).1 hs
  obtain rfl : m = m' := Option.some.inj (hm.symm.trans hm')
  have hview := page?_wrote e (e.store.put m f.page) p f
  have hstored := Store.page?_put hb.catalog hm hsound hsize hi hl
  have hbytes := Store.bytes?_put hb.catalog hm hsound hsize hi
  have hpages := Store.pages_put hb.catalog hm hsound hsize
  rw [hid] at hstored hbytes hpages
  have hother : ∀ q, q ≠ p → Unmoved e (e.wrote (e.store.put m f.page) p f) q := by
    intro q hq
    exact ⟨(hview q).trans (if_neg hq), (hbytes q).trans (if_neg hq), (hstored q).trans (if_neg hq)⟩
  have hself : WrittenBack e (e.wrote (e.store.put m f.page) p f) p f.page :=
    ⟨hp, hd, (hview p).trans (if_pos rfl), (hbytes p).trans (if_pos rfl), (hstored p).trans (if_pos rfl)⟩
  refine ⟨?_, ⟨rfl, ⟨rfl, rfl, rfl⟩, ?_, ?_⟩, hself, hother⟩
  · refine hb.put hm hsound hl hsize hi rfl (tidy_wrote hf hb.tidy _) (.inr ?_) ?_
    · refine ⟨f.page.withDirtier none, ?_, rfl, hsound.withDirtier none, (hb.page p _ hp).2.2, rfl, rfl⟩
      rw [hid]
      exact hself.cached
    · intro q hq
      rw [hid] at hq
      exact (hother q hq).cached
  · intro t
    refine (hpages t).trans ?_
    split
    · next ht =>
      subst ht
      exact Nat.max_eq_left hlt
    · rfl
  · intro q
    by_cases hq : q = p
    · exact .inr ⟨f.page, hq ▸ hself⟩
    · exact .inl (hother q hq)

end

/-- A flush leaves a clean page alone and writes a dirty one. -/
theorem flush_eq_ok (h : e.flush p = .ok e') :
    (e' = e ∧ e.pool.IsClean p) ∨
      ∃ f s, e.pool.cached[p]? = some f ∧ f.page.dirtier ≠ none ∧
        e.store.writePage f.page = .ok s ∧ e' = e.wrote s p f := by
  unfold flush at h
  split at h
  · next hn =>
    cases h
    refine .inl ⟨rfl, fun page hp => ?_⟩
    rw [Pool.page?_eq_none.2 hn] at hp
    cases hp
  · next f hf =>
    split at h
    · next hd =>
      split at h
      · cases h
      · next s hs =>
        cases h
        exact .inr ⟨f, s, hf, Option.isSome_iff_ne_none.1 hd, hs, rfl⟩
    · next hd =>
      cases h
      refine .inl ⟨rfl, fun page hp => ?_⟩
      rw [Pool.page?_eq_some.2 ⟨f, hf, rfl⟩] at hp
      cases hp
      exact Pool.isDirty_eq_false.1 (Bool.not_eq_true _ ▸ hd)

theorem catalog_flush (h : e.flush p = .ok e') : e'.store.catalog = e.store.catalog := by
  rcases flush_eq_ok h with ⟨rfl, -⟩ | ⟨f, s, -, -, hs, rfl⟩
  · rfl
  · exact Store.catalog_writePage hs

theorem catalog_flushEach : ∀ (ps : List PageId) (e : Engine),
    (e.flushEach ps).1.store.catalog = e.store.catalog
  | [], _ => rfl
  | p :: ps, e => by
    rw [Engine.flushEach]
    split
    · rfl
    · next e1 hf => exact (catalog_flushEach ps e1).trans (catalog_flush hf)

/-- A flush fails if the page is dirty and its write fails. -/
theorem flush_eq_error {x : Error} (h : e.flush p = .error x) :
    ∃ page, e.pool.page? p = some page ∧ page.dirtier ≠ none ∧ e.store.writePage page = .error x := by
  unfold flush at h
  split at h
  · cases h
  · next f hf =>
    split at h
    · next hd =>
      split at h
      · next hx =>
        cases h
        exact ⟨f.page, Pool.page?_eq_some.2 ⟨f, hf, rfl⟩, Option.isSome_iff_ne_none.1 hd, hx⟩
      · cases h
    · cases h

/-- What a successful flush of one page does. -/
theorem flush_spec (hb : Backed e) (h : e.flush p = .ok e') :
    Backed e' ∧ Flushed e e' ∧ e'.pool.IsClean p ∧ ∀ q, q ≠ p → Unmoved e e' q := by
  rcases flush_eq_ok h with ⟨rfl, hclean⟩ | ⟨f, s, hf, hd, hs, rfl⟩
  · exact ⟨hb, .refl _, hclean, fun q _ => .refl _ q⟩
  · obtain ⟨hb', hflushed, hself, hother⟩ := wrote_spec hf hb hd hs
    refine ⟨hb', hflushed, fun page hp => ?_, hother⟩
    have := hself.cached.symm.trans hp
    cases this
    rfl

/-- A flush makes no page dirty. -/
theorem Coherent.flushed (hc : Coherent e) (hb : Backed e') (h : Flushed e e') : Coherent e' := by
  refine hc.of_backed hb h.rules.locks fun p page t hp hd => ?_
  rcases h.page p with hu | ⟨page', hw⟩
  · exact hu.cached ▸ hp
  · rw [hw.cached] at hp
    cases hp
    cases hd

/-- A page whose table may be written can be flushed. -/
theorem flush_isOk (hb : Backed e)
    (hw : ∀ m, e.store.catalog[p.table]? = some m → m.faults.writes = false) :
    ∃ e', e.flush p = .ok e' := by
  unfold flush
  split
  · exact ⟨_, rfl⟩
  · next f hf =>
    split
    · have hp : e.pool.page? p = some f.page := Pool.page?_eq_some.2 ⟨f, hf, rfl⟩
      obtain ⟨hid, -, m, hm, -, hsize⟩ := hb.page p _ hp
      obtain ⟨old, hold, -⟩ := hb.stored p _ hp
      have hlt := (Store.sound_page? hb.catalog hold).2.2.2.2
      have hwrite : e.store.writePage f.page = .ok (e.store.put m f.page) := by
        refine (Store.writePage_eq_ok_iff hb.catalog).2 ⟨m, hm, hw m (hid ▸ hm), hsize, ?_, rfl⟩
        rw [hid]
        omega
      rw [hwrite]
      exact ⟨_, rfl⟩
    · exact ⟨_, rfl⟩

theorem flushEach_spec : ∀ (ps : List PageId) {e : Engine}, Backed e →
    Backed (e.flushEach ps).1 ∧ Flushed e (e.flushEach ps).1 ∧
      ((e.flushEach ps).2 = .ok () → ∀ p ∈ ps, (e.flushEach ps).1.pool.IsClean p) ∧
      ∀ p, p ∉ ps → Unmoved e (e.flushEach ps).1 p
  | [], e, hb => ⟨hb, .refl e, fun _ p hp => by simp at hp, fun p _ => .refl e p⟩
  | p :: ps, e, hb => by
    rw [flushEach]
    split
    · refine ⟨hb, .refl e, ?_, fun p _ => .refl e p⟩
      intro h
      cases h
    · next e1 h1 =>
      obtain ⟨hb1, hf1, hclean, hother1⟩ := flush_spec hb h1
      obtain ⟨hb2, hf2, hall, hother2⟩ := flushEach_spec ps hb1
      refine ⟨hb2, hf1.trans hf2, ?_, ?_⟩
      · intro hok q hq
        rcases List.mem_cons.1 hq with rfl | hq
        · exact hf2.isClean hclean
        · exact hall hok q hq
      · intro q hq
        rw [List.mem_cons, not_or] at hq
        exact (hother1 q hq.1).trans (hother2 q hq.2)

theorem flushEach_isOk
    (hw : ∀ (t : TableId) (m : Mount), e.store.catalog[t]? = some m → m.faults.writes = false) :
    ∀ ps : List PageId, Backed e → (e.flushEach ps).2 = .ok () := by
  intro ps
  induction ps generalizing e with
  | nil => intro _; rfl
  | cons p ps ih =>
    intro hb
    obtain ⟨e1, h1⟩ := flush_isOk (p := p) hb (hw p.table)
    obtain ⟨hb1, hf1, -, -⟩ := flush_spec hb h1
    rw [flushEach, h1]
    refine ih ?_ hb1
    rw [hf1.catalog]
    exact hw

/-! ## Dropping and restoring -/

theorem page?_drop (c : Pool) (p q : PageId) :
    (c.drop p).page? q = if q = p then none else c.page? q := by
  rw [Pool.page?, Pool.drop, Pool.getElem?_erase]
  split <;> rfl

theorem tidy_drop {c : Pool} (ht : c.Tidy) (p : PageId) : (c.drop p).Tidy := by
  refine ⟨?_, ?_⟩
  · have := @Std.TreeMap.size_erase_le _ _ _ c.cached _ p
    exact Nat.le_trans this ht.size
  · intro q
    change q ∈ (c.recency.forget p).order ↔ q ∈ c.cached.erase p
    rw [Recency.mem_forget, ht.order, Std.TreeMap.mem_erase]
    simp only [ne_eq, Std.LawfulEqCmp.compare_eq_iff_eq, eq_comm (a := p)]
    exact and_comm

/-- Discarding a page writes it back if need be and takes it out of the cache. -/
theorem discard_spec (hb : Backed e) (p : PageId) :
    Backed (e.discard p).1 ∧
      ((e.discard p).1 = e ∨
        ∃ e1, Flushed e e1 ∧ Turnover e1 (e.discard p).1 ∧ (e.discard p).1.pool.page? p = none) := by
  unfold discard
  split
  · exact ⟨hb, .inl rfl⟩
  · next e1 h1 =>
    obtain ⟨hb1, hf, hclean, -⟩ := flush_spec hb h1
    have hturn : Turnover e1 { e1 with pool := e1.pool.drop p } := by
      refine ⟨rfl, ⟨rfl, rfl, rfl⟩, ?_⟩
      intro q
      rw [page?_drop]
      split
      · next hq =>
        subst hq
        exact .inr ⟨hclean, .inl rfl⟩
      · exact .inl rfl
    exact ⟨hb1.reload hturn.reload (tidy_drop hb1.tidy p), .inr ⟨e1, hf, hturn, by
      rw [page?_drop, if_pos rfl]⟩⟩

theorem Coherent.discard (hc : Coherent e) (p : PageId) : Coherent (e.discard p).1 := by
  obtain ⟨hb, he | ⟨e1, hf, hturn, -⟩⟩ := discard_spec hc.toBacked p
  · rw [he]
    exact hc
  · refine hc.of_backed hb (hturn.rules.locks.trans hf.rules.locks) fun q page t hq hd => ?_
    have hcat : e1.store.catalog.Sound := hf.catalog ▸ hc.catalog
    have h1 := hturn.of_dirty hcat hq (by rw [hd]; simp)
    rcases hf.page q with hu | ⟨page', hw⟩
    · exact hu.cached ▸ h1
    · rw [hw.cached] at h1
      cases h1
      cases hd

/-- Each of the pages is as it is stored, or out of the cache; the others are as before. -/
structure Restored (e e' : Engine) (ps : List PageId) : Prop where
  reload : Reload e e'
  listed : ∀ p ∈ ps, e'.pool.page? p = none ∨ e'.pool.page? p = e.store.page? p
  other : ∀ p, p ∉ ps → e'.pool.page? p = e.pool.page? p

theorem restored_restore (e : Engine) (p : PageId) : Restored e (e.restore p).1 [p] := by
  have hview : ∀ q, q ≠ p → (e.restore p).1.pool.page? q = e.pool.page? q := by
    intro q hq
    unfold restore
    split
    · rw [page?_drop, if_neg hq]
    · rw [Pool.page?, Std.TreeMap.getElem?_modify]
      simp only [Std.LawfulEqCmp.compare_eq_iff_eq, Ne.symm hq, if_false]
      rfl
  have hself : (e.restore p).1.pool.page? p = none ∨ (e.restore p).1.pool.page? p = e.store.page? p := by
    unfold restore
    split
    · exact .inl (by rw [page?_drop, if_pos rfl])
    · next page hpage =>
      rw [Pool.page?, Std.TreeMap.getElem?_modify_self, Store.page?_of_readPage hpage]
      cases e.pool.cached[p]? with
      | none => exact .inl rfl
      | some f => exact .inr rfl
  have hrules : (e.restore p).1.store = e.store ∧ Pool.SameRules e.pool (e.restore p).1.pool := by
    unfold restore
    split <;> exact ⟨rfl, rfl, rfl, rfl⟩
  refine ⟨⟨hrules.1, hrules.2, fun q => ?_⟩, fun q hq => ?_, fun q hq => ?_⟩
  · by_cases hq : q = p
    · subst hq
      exact .inr hself
    · exact .inl (hview q hq)
  · rw [List.mem_singleton.1 hq]
    exact hself
  · exact hview q fun he => hq (List.mem_singleton.2 he)

theorem tidy_restore (ht : e.pool.Tidy) (p : PageId) : (e.restore p).1.pool.Tidy := by
  unfold restore
  split
  · exact tidy_drop ht p
  · refine ⟨?_, ?_⟩
    · rw [Std.TreeMap.size_modify]
      exact ht.size
    · intro q
      rw [Std.TreeMap.mem_modify]
      exact ht.order q

theorem restored_restoreEach : ∀ (ps : List PageId) (e : Engine), Restored e (e.restoreEach ps).1 ps
  | [], _ => ⟨⟨rfl, .refl _, fun _ => .inl rfl⟩, fun p hp => by simp at hp, fun _ _ => rfl⟩
  | p :: ps, e => by
    have h1 := restored_restore e p
    have h2 := restored_restoreEach ps (e.restore p).1
    have hs := h1.reload.store
    have hlisted : ∀ q ∈ p :: ps, (((e.restore p).1).restoreEach ps).1.pool.page? q = none ∨
        (((e.restore p).1).restoreEach ps).1.pool.page? q = e.store.page? q := by
      intro q hq
      by_cases hmem : q ∈ ps
      · rw [← hs]
        exact h2.listed q hmem
      · obtain rfl : q = p := (List.mem_cons.1 hq).resolve_right hmem
        rw [h2.other q hmem]
        exact h1.listed q (List.mem_singleton.2 rfl)
    have hother : ∀ q, q ∉ p :: ps →
        (((e.restore p).1).restoreEach ps).1.pool.page? q = e.pool.page? q := by
      intro q hq
      rw [List.mem_cons, not_or] at hq
      rw [h2.other q hq.2, h1.other q (by simpa using hq.1)]
    refine ⟨⟨h2.reload.store.trans hs, h1.reload.rules.trans h2.reload.rules, ?_⟩, hlisted, hother⟩
    intro q
    by_cases hq : q ∈ p :: ps
    · exact .inr (hlisted q hq)
    · exact .inl (hother q hq)

theorem tidy_restoreEach : ∀ (ps : List PageId) {e : Engine}, e.pool.Tidy →
    (e.restoreEach ps).1.pool.Tidy
  | [], _, ht => ht
  | p :: ps, _, ht => tidy_restoreEach ps (tidy_restore ht p)

theorem restoreEach_spec (ps : List PageId) (hc : Coherent e) :
    Coherent (e.restoreEach ps).1 ∧ Restored e (e.restoreEach ps).1 ps :=
  ⟨hc.reload (restored_restoreEach ps e).reload (tidy_restoreEach ps hc.tidy),
    restored_restoreEach ps e⟩

/-! ## Completions -/

/-- No cached page is dirty for the transaction. -/
def Spotless (e : Engine) (t : TxnId) : Prop :=
  ∀ (p : PageId) (page : Page), e.pool.page? p = some page → page.dirtier ≠ some t

/-- A transaction without dirty pages may let go of all its locks. -/
theorem Coherent.releaseAll (hc : Coherent e) {t : TxnId} (hn : Spotless e t) :
    Coherent (e.releaseAll t).1 := by
  refine hc.withLocks (hc.locks.releaseAll t) ?_
  intro p page u hp hd ho
  refine ho.releaseAll hc.locks ?_
  rintro rfl
  exact hn p page hp hd

/-- A commit writes back what its transaction dirtied, and nothing else; if that
succeeds, the transaction is left without dirty pages, and without locks. -/
theorem keepChanges_spec (hc : Coherent e) (t : TxnId) :
    Coherent (e.keepChanges t).engine ∧ ∃ e1, Flushed e e1 ∧
      (∀ p, p ∉ e.pool.dirtyPages (· == t) → Unmoved e e1 p) ∧
      (((e.keepChanges t).result = .ok () ∧ Spotless e1 t ∧
          (e.keepChanges t).engine = (e1.releaseAll t).1) ∨
        ((∃ x, (e.keepChanges t).result = .error x) ∧ (e.keepChanges t).engine = e1)) := by
  obtain ⟨hb1, hf, hall, hother⟩ := flushEach_spec (e.pool.dirtyPages (· == t)) hc.toBacked
  have hc1 := hc.flushed hb1 hf
  unfold keepChanges
  split
  · next e1 x h1 =>
    rw [flushTxn] at h1
    rw [h1] at hc1 hf hother
    exact ⟨hc1, e1, hf, hother, .inr ⟨⟨x, rfl⟩, rfl⟩⟩
  · next e1 u h1 =>
    rw [flushTxn] at h1
    rw [h1] at hc1 hf hall hother
    have hclean : Spotless e1 t := by
      intro p page hp hd
      have hmem : p ∈ e.pool.dirtyPages (· == t) := by
        rcases hf.page p with hu | ⟨page', hw⟩
        · exact Pool.mem_dirtyPages.2 ⟨page, t, hu.cached ▸ hp, hd, by simp⟩
        · have := hw.cached.symm.trans hp
          cases this
          cases hd
      have := hall rfl p hmem page hp
      rw [hd] at this
      cases this
    exact ⟨hc1.releaseAll hclean, e1, hf, hother, .inl ⟨rfl, hclean, rfl⟩⟩

theorem keepChanges_of_ok (hc : Coherent e) {t : TxnId} (hok : (e.keepChanges t).result = .ok ()) :
    ∃ e1, Flushed e e1 ∧ (∀ p, p ∉ e.pool.dirtyPages (· == t) → Unmoved e e1 p) ∧ Spotless e1 t ∧
      (e.keepChanges t).engine = (e1.releaseAll t).1 := by
  obtain ⟨-, e1, hf, hother, ⟨-, hspot, he⟩ | ⟨⟨x, hx⟩, -⟩⟩ := keepChanges_spec hc t
  · exact ⟨e1, hf, hother, hspot, he⟩
  · rw [hok] at hx
    cases hx

/-- Whether or not a commit succeeds, all that changes besides locks is that some
pages of its transaction are written back. -/
theorem keepChanges_flushed (hc : Coherent e) (t : TxnId) :
    ∃ e1 locks, Flushed e e1 ∧ (∀ p, p ∉ e.pool.dirtyPages (· == t) → Unmoved e e1 p) ∧
      (e.keepChanges t).engine = e1.withLocks locks := by
  obtain ⟨-, e1, hf, hother, ⟨-, -, he⟩ | ⟨-, he⟩⟩ := keepChanges_spec hc t
  · exact ⟨e1, _, hf, hother, he⟩
  · exact ⟨e1, e1.pool.locks, hf, hother, he⟩

theorem catalog_keepChanges (e : Engine) (t : TxnId) :
    (e.keepChanges t).engine.store.catalog = e.store.catalog := by
  have hflush := catalog_flushEach (e.pool.dirtyPages (· == t)) e
  unfold keepChanges flushTxn
  split
  · next hx => rwa [hx] at hflush
  · next hok => rwa [hok] at hflush

/-- A commit does not fail as long as tables may be written. -/
theorem keepChanges_isOk (hc : Coherent e)
    (hw : ∀ (t : TableId) (m : Mount), e.store.catalog[t]? = some m → m.faults.writes = false)
    (t : TxnId) : (e.keepChanges t).result = .ok () := by
  have hflush := flushEach_isOk hw (e.pool.dirtyPages (· == t)) hc.toBacked
  unfold keepChanges flushTxn
  split
  · next h =>
    rw [h] at hflush
    cases hflush
  · rfl

/-- An abort restores, and leaves the transaction without dirty pages or locks. -/
theorem dropChanges_spec (hc : Coherent e) (t : TxnId) :
    Coherent (e.dropChanges t).engine ∧ ∃ e1, Restored e e1 (e.pool.dirtyPages (· == t)) ∧
      Spotless e1 t ∧ (e.dropChanges t).engine = (e1.releaseAll t).1 := by
  obtain ⟨hc1, hr⟩ := restoreEach_spec (e.pool.dirtyPages (· == t)) hc
  have hclean : Spotless (e.restoreEach (e.pool.dirtyPages (· == t))).1 t := by
    intro p page hp hd
    by_cases hmem : p ∈ e.pool.dirtyPages (· == t)
    · rcases hr.listed p hmem with hn | hs
      · rw [hn] at hp
        cases hp
      · rw [hs] at hp
        rw [(Store.sound_page? hc.catalog hp).2.1] at hd
        cases hd
    · rw [hr.other p hmem] at hp
      exact hmem (Pool.mem_dirtyPages.2 ⟨page, t, hp, hd, by simp⟩)
  exact ⟨hc1.releaseAll hclean, _, hr, hclean, rfl⟩

/-- An abort writes nothing. -/
theorem store_dropChanges (e : Engine) (t : TxnId) : (e.dropChanges t).engine.store = e.store :=
  (restored_restoreEach (e.pool.dirtyPages (· == t)) e).reload.store

end Engine
end PageStore
