import Mathlib.Data.List.Basic
import PageStore.Proofs.Pool.Writeback

/-!
# The order of writes

A flush writes dirty pages by ascending id, each as it is in the cache, and breaks off
at the first write that fails. What storage holds then is what the writes before made
of it: the pages written are the cached ones, and every other page is as it was.

A table may begin to fail, or cease to, between any two writes. So whether a write
fails does not depend on what became of the others, not even in the same table.

A write can be refused before it begins: its table is unknown or made to fail, or the page
does not suit the file. Once it has begun it can still break off with some bytes of the page
in the file, or with all of them if it fails to reach the device. In `Flushes` every failing
write is refused; `Breaks` has both.

Results:
* `Store.Writes.spec`: what a list of writes makes of storage.
* `Store.FailsToWrite.spec`: what a write that fails makes of it.
* `Pool.ascending_dirtyPages`: the order in which dirty pages are flushed.
* `Engine.Flushes.written`: what a flush of dirty pages makes of an engine.
* `Engine.Flushes.broken_at`: where a flush breaks off, and what it has written by then.
* `Engine.Breaks.written`: the same if the last write has begun.
-/
namespace PageStore

namespace Store

variable {s s' : Store}

/-- The pages were written one after another, while tables began or ceased to fail. -/
inductive Writes : Store → List Page → Store → Prop
  | none {s s' : Store} (hs : s.SameFiles s') : Writes s [] s'
  | next {s s1 s2 s' : Store} {page : Page} {pages : List Page} (hs : s.SameFiles s1)
      (hw : s1.writePage page = .ok s2) (h : Writes s2 pages s') : Writes s (page :: pages) s'

theorem Writes.sameFiles {pages : List Page} (h : Writes s pages s') {s'' : Store}
    (hs : s'.SameFiles s'') : Writes s pages s'' := by
  induction h with
  | none h => exact .none (h.trans hs)
  | next h hw _ ih => exact .next h hw (ih hs)

/-- Every page that was written is there, and all others are as before. -/
theorem Writes.spec {pages : List Page} (h : Writes s pages s') (hc : s.catalog.Sound)
    (hp : ∀ page ∈ pages, page.Sound ∧ s.Fits page) (hn : (pages.map Page.id).Nodup) :
    s'.catalog.Sound ∧ (∀ t, s'.file? t = s.file? t) ∧
      (∀ page ∈ pages, s'.bytes? page.id = some page.image ∧ s'.page? page.id = some page.asStored) ∧
      ∀ p, p ∉ pages.map Page.id → s'.bytes? p = s.bytes? p ∧ s'.page? p = s.page? p := by
  induction h with
  | none hs =>
    exact ⟨hs.sound hc, hs.file, fun _ hmem => absurd hmem List.not_mem_nil,
      fun p _ => ⟨hs.bytes p, hs.page p⟩⟩
  | @next s s1 s2 s' page pages hs hw h ih =>
    obtain ⟨hnot, hn⟩ := List.nodup_cons.1 hn
    obtain ⟨hsound, hfits⟩ := hp page List.mem_cons_self
    have hc1 := hs.sound hc
    obtain ⟨m, hm, -, hsize, hi, rfl⟩ := (writePage_eq_ok_iff hc1).1 hw
    obtain ⟨m', hm', hl, -⟩ := hs.fits hfits
    obtain rfl : m = m' := Option.some.inj (hm.symm.trans hm')
    have hbytes := bytes?_put hc1 hm hsound hsize hi
    have hpage := page?_put hc1 hm hsound hsize hi hl
    obtain ⟨hc', hfile, hall, hother⟩ :=
      ih hc1 (fun q hq => ⟨(hp q (List.mem_cons_of_mem _ hq)).1,
        hs.fits (hp q (List.mem_cons_of_mem _ hq)).2⟩) hn
    refine ⟨hc', fun t => (hfile t).trans (hs.file t), fun q hq => ?_, fun p hnp => ?_⟩
    · rcases List.mem_cons.1 hq with rfl | hq
      · -- later writes are of other pages
        obtain ⟨hb, hg⟩ := hother q.id hnot
        exact ⟨hb.trans ((hbytes q.id).trans (if_pos rfl)),
          hg.trans ((hpage q.id).trans (if_pos rfl))⟩
      · exact hall q hq
    · rw [List.map_cons, List.mem_cons, not_or] at hnp
      obtain ⟨hb, hg⟩ := hother p hnp.2
      exact ⟨(hb.trans ((hbytes p).trans (if_neg hnp.1))).trans (hs.bytes p),
        (hg.trans ((hpage p).trans (if_neg hnp.1))).trans (hs.page p)⟩

/-- The write of a page fails with `x` and leaves `s'`: it is refused, or it breaks off after
`n` bytes of the page, perhaps none of them and perhaps all. -/
inductive FailsToWrite (s : Store) (page : Page) : Store → Error → Prop
  | refused {x : Error} (h : s.writePage page = .error x) : FailsToWrite s page s x
  | torn {m : Mount} {s1 : Store} (hm : s.catalog[page.id.table]? = some m)
      (hw : s.writePage page = .ok s1) (n : Nat) (fault : StorageFault) :
      FailsToWrite s page (s.putPart m page n) (.io fault)

/-- It leaves a beginning of the page in its place, and that only if it has begun, and all
other pages as they were. -/
theorem FailsToWrite.spec {page : Page} {x : Error} (h : s.FailsToWrite page s' x)
    (hc : s.catalog.Sound) (hp : page.Sound) (hf : s.Fits page) :
    s'.catalog = s.catalog ∧
    (∃ n, s'.bytes? page.id = brokenOff n page.image (s.bytes? page.id) ∧
      (n = 0 ∨ (s.writePage page).isOk = true)) ∧
    ∀ p, p ≠ page.id → s'.bytes? p = s.bytes? p ∧ s'.page? p = s.page? p := by
  obtain ⟨m, hm, -, hsize⟩ := hf
  cases h with
  | refused h =>
    have hne : page.image ≠ [] := by
      rw [← List.length_pos_iff, length_image_of_mount hc hm hp hsize]
      exact hc.pageSize_pos hm
    exact ⟨rfl, ⟨0, (brokenOff_zero hne _).symm, .inl rfl⟩, fun p _ => ⟨rfl, rfl⟩⟩
  | @torn m' s1 hm' hw n fault =>
    obtain rfl : m = m' := Option.some.inj (hm.symm.trans hm')
    obtain ⟨-, -, -, -, hi, -⟩ := (writePage_eq_ok_iff hc).1 hw
    have hb := bytes?_putPart hc hm hp hsize hi n
    refine ⟨rfl, ⟨n, (hb _).trans (if_pos rfl), .inr (by rw [hw]; rfl)⟩, fun p hne => ?_⟩
    have hbp := (hb p).trans (if_neg hne)
    exact ⟨hbp, page?_congr hc rfl hbp⟩

end Store

namespace Pool

theorem cached_of_dirty {c : Pool} {of : TxnId → Bool} {p : PageId} (h : p ∈ c.dirtyPages of) :
    ∃ page, c.page? p = some page := by
  obtain ⟨page, -, hpage, -⟩ := mem_dirtyPages.1 h
  exact ⟨page, hpage⟩

theorem not_clean_of_dirty {c : Pool} {of : TxnId → Bool} {p : PageId} (h : p ∈ c.dirtyPages of) :
    ¬c.IsClean p := by
  obtain ⟨page, t, hpage, hd, -⟩ := mem_dirtyPages.1 h
  exact fun hclean => Option.some_ne_none t (hd.symm.trans (hclean page hpage))

theorem ascending_dirtyPages (c : Pool) (of : TxnId → Bool) :
    (c.dirtyPages of).Pairwise fun p q => compare p q = .lt :=
  List.pairwise_map.2 (Std.TreeMap.ordered_keys_toList.filter _)

theorem nodup_dirtyPages (c : Pool) (of : TxnId → Bool) : (c.dirtyPages of).Nodup := by
  refine (c.ascending_dirtyPages of).imp fun {p q} h => ?_
  rintro rfl
  simp at h

/-- The dirty pages are known from their order and from which they are. -/
theorem dirtyPages_eq {c : Pool} {of : TxnId → Bool} {ps : List PageId}
    (hs : ps.Pairwise fun p q => compare p q = .lt) (h : ∀ p, p ∈ c.dirtyPages of ↔ p ∈ ps) :
    c.dirtyPages of = ps := by
  have hn : ps.Nodup := hs.imp fun {p q} hlt => by
    rintro rfl
    simp at hlt
  refine ((List.perm_ext_iff_of_nodup (c.nodup_dirtyPages of) hn).2 h).eq_of_pairwise
    (fun p q _ _ hpq hqp => ?_) (c.ascending_dirtyPages of) hs
  exact absurd hqp (Std.OrientedCmp.not_lt_of_lt hpq)

end Pool

namespace Engine

/-- Pages are flushed one after another, up to the first failure, while tables begin
or cease to fail. -/
inductive Flushes : Engine → List PageId → Engine → Except Error Unit → Prop
  | done (e : Engine) : Flushes e [] e (.ok ())
  | broken {e : Engine} {s : Store} {p : PageId} {ps : List PageId} {x : Error}
      (hs : e.store.SameFiles s) (hx : flush { e with store := s } p = .error x) :
      Flushes e (p :: ps) { e with store := s } (.error x)
  | next {e e1 e' : Engine} {s : Store} {p : PageId} {ps : List PageId} {r : Except Error Unit}
      (hs : e.store.SameFiles s) (hp : flush { e with store := s } p = .ok e1)
      (h : Flushes e1 ps e' r) : Flushes e (p :: ps) e' r

/-- Nothing need change meanwhile. -/
theorem flushes_flushEach : ∀ (ps : List PageId) (e : Engine),
    Flushes e ps (e.flushEach ps).1 (e.flushEach ps).2
  | [], e => .done e
  | p :: ps, e => by
    rw [flushEach]
    split
    · next hx => exact .broken (.refl _) hx
    · next e1 hp => exact .next (.refl _) hp (flushes_flushEach ps e1)

variable {e e' : Engine}

/-- The pages of a list were written, in this order and as they were in the cache, and are
clean now. Apart from locks nothing else has happened to the pool. -/
structure Written (e : Engine) (ps : List PageId) (e' : Engine) : Prop where
  writes : e.store.Writes (ps.filterMap e.pool.page?) e'.store
  cached : ∀ p, e'.pool.cached[p]? = (e.pool.cached[p]?).map fun f =>
    if p ∈ ps then { f with page := f.page.withDirtier none } else f
  counters : e'.pool.counters =
    { e.pool.counters with writes := e.pool.counters.writes + .ofNat ps.length }
  rest : { e'.pool with
    cached := e.pool.cached, counters := e.pool.counters, locks := e.pool.locks } = e.pool

theorem written_nil {s : Store} (hs : e.store.SameFiles s) : Written e [] { e with store := s } := by
  refine ⟨.none hs, fun p => ?_, ?_, rfl⟩
  · simp
  · simp

theorem Written.sameFiles {ps : List PageId} (h : Written e ps e') {s : Store}
    (hs : e'.store.SameFiles s) : Written e ps { e' with store := s } :=
  ⟨h.writes.sameFiles hs, h.cached, h.counters, h.rest⟩

theorem Written.page? {ps : List PageId} (h : Written e ps e') (p : PageId) : e'.pool.page? p =
    (e.pool.page? p).map fun page => if p ∈ ps then page.withDirtier none else page := by
  rw [Pool.page?, Pool.page?, h.cached, Option.map_map, Option.map_map]
  congr 1
  funext f
  dsimp only [Function.comp_apply]
  split <;> rfl

theorem Written.page?_of_not_mem {ps : List PageId} (h : Written e ps e') {p : PageId} (hp : p ∉ ps) :
    e'.pool.page? p = e.pool.page? p := by
  rw [h.page?]
  simp [hp]

theorem page?_wrote_of_not_mem (e : Engine) (s : Store) (f : Frame) {p : PageId} {ps : List PageId}
    (hp : p ∉ ps) : ∀ q ∈ ps, (wrote e s p f).pool.page? q = e.pool.page? q := by
  intro q hq
  rw [page?_wrote, if_neg]
  rintro rfl
  exact hp hq

/-- A dirty page is written, and then the others. -/
theorem Written.cons {p : PageId} {ps : List PageId} {f : Frame} {s s1 : Store}
    (hs : e.store.SameFiles s) (hf : e.pool.cached[p]? = some f) (hw : s.writePage f.page = .ok s1)
    (hp : p ∉ ps) (h : Written (wrote { e with store := s } s1 p f) ps e') :
    Written e (p :: ps) e' := by
  have hat : ∀ q, (wrote { e with store := s } s1 p f).pool.cached[q]? =
      if q = p then some { f with page := f.page.withDirtier none } else e.pool.cached[q]? := by
    intro q
    rw [wrote, Std.TreeMap.getElem?_insert]
    simp only [Std.LawfulEqCmp.compare_eq_iff_eq, eq_comm (a := p)]
  have hsame := page?_wrote_of_not_mem { e with store := s } s1 f hp
  refine ⟨?_, fun q => ?_, ?_, ?_⟩
  · have hfirst : e.pool.page? p = some f.page := Pool.page?_eq_some.2 ⟨f, hf, rfl⟩
    rw [List.filterMap_cons_some hfirst, ← List.filterMap_congr hsame]
    exact .next hs hw h.writes
  · rw [h.cached, hat]
    by_cases hq : q = p
    · subst hq
      simp [hp, hf]
    · simp [hq]
  · rw [h.counters]
    simp only [wrote, Counters.addWrite, List.length_cons, UInt64.ofNat_add]
    congr 1
    grind
  · exact congrArg (fun c => { c with
      cached := e.pool.cached, counters := e.pool.counters, locks := e.pool.locks }) h.rest

/-- What a flush of `ps` that ends in `r` has done: it has written all pages, or those
before one whose write failed. -/
def FlushEnds (e : Engine) (ps : List PageId) (e' : Engine) : Except Error Unit → Prop
  | .ok _ => Written e ps e'
  | .error x => ∃ before q after page, ps = before ++ q :: after ∧ e.pool.page? q = some page ∧
    e'.store.writePage page = .error x ∧ Written e before e'

theorem Flushes.written {ps : List PageId} {r : Except Error Unit} (h : Flushes e ps e' r)
    (hn : ps.Nodup) (hd : ∀ p ∈ ps, ¬e.pool.IsClean p) :
    e'.pool.locks = e.pool.locks ∧ FlushEnds e ps e' r := by
  induction h with
  | done e => exact ⟨rfl, written_nil (.refl _)⟩
  | @broken e s p ps x hs hx =>
    obtain ⟨page, hpage, -, hw⟩ := flush_eq_error hx
    exact ⟨rfl, [], p, ps, page, rfl, hpage, hw, written_nil hs⟩
  | @next e e1 e' s p ps r hs hp h ih =>
    obtain ⟨hnot, hn⟩ := List.nodup_cons.1 hn
    rcases flush_eq_ok hp with ⟨-, hclean⟩ | ⟨f, s1, hf, -, hw, rfl⟩
    · exact absurd hclean (hd p List.mem_cons_self)
    have hsame := page?_wrote_of_not_mem { e with store := s } s1 f hnot
    obtain ⟨hlocks, hends⟩ := ih hn (by
      intro q hq hclean
      refine hd q (List.mem_cons_of_mem _ hq) fun page hpage => hclean page ?_
      rw [hsame q hq, hpage])
    refine ⟨hlocks, ?_⟩
    cases r with
    | ok => exact Written.cons hs hf hw hnot hends
    | error x =>
      obtain ⟨before, q, after, page, rfl, hpage, hfail, hwritten⟩ := hends
      refine ⟨p :: before, q, after, page, rfl, ?_, hfail, ?_⟩
      · rw [← hsame q (by simp), hpage]
      · exact .cons hs hf hw (fun hmem => hnot (List.mem_append_left _ hmem)) hwritten

/-- The flush of a list breaks off with `x`: up to a page the writes succeed, while tables begin
or cease to fail, and then the write of a dirty page fails, which may have begun. -/
inductive Breaks (e : Engine) (ps : List PageId) : Engine → Error → Prop
  | intro {before after : List PageId} {q : PageId} {e1 : Engine} {s s' : Store} {page : Page}
      {x : Error} (hps : ps = before ++ q :: after) (h : Flushes e before e1 (.ok ()))
      (hs : e1.store.SameFiles s) (hq : e1.pool.page? q = some page) (hd : page.dirtier ≠ none)
      (hw : s.FailsToWrite page s' x) : Breaks e ps { e1 with store := s' } x

/-- A write may also be refused. -/
theorem Flushes.breaks {ps : List PageId} {x : Error} (h : Flushes e ps e' (.error x)) :
    Breaks e ps e' x := by
  generalize hr : Except.error x = r at h
  induction h with
  | done => cases hr
  | @broken e s p ps x hs hx =>
    cases hr
    obtain ⟨page, hpage, hd, hw⟩ := flush_eq_error hx
    exact .intro (List.nil_append _).symm (.done e) hs hpage hd (.refused hw)
  | next hs hp h ih =>
    cases ih hr with
    | intro hps hbefore hs' hq hd hw =>
      exact .intro (congrArg _ hps) (.next hs hp hbefore) hs' hq hd hw

/-- The pages before the one whose write failed have been written by then. -/
theorem Breaks.written {ps : List PageId} {x : Error} (h : Breaks e ps e' x) (hn : ps.Nodup)
    (hd : ∀ p ∈ ps, ¬e.pool.IsClean p) :
    e'.pool.locks = e.pool.locks ∧ ∃ before q after page s, ps = before ++ q :: after ∧
      e.pool.page? q = some page ∧ Written e before { e' with store := s } ∧
      s.FailsToWrite page e'.store x := by
  cases h with
  | @intro before after q e1 s s' page x hps h hs hq hdirty hw =>
    rw [hps] at hn hd
    obtain ⟨hbefore, -, hdisjoint⟩ := List.nodup_append.1 hn
    obtain ⟨hlocks, hwritten⟩ := h.written hbefore fun p hp => hd p (List.mem_append_left _ hp)
    have hnot : q ∉ before := fun hmem => hdisjoint q hmem q List.mem_cons_self rfl
    have hwritten : Written e before e1 := hwritten
    exact ⟨hlocks, before, q, after, page, s, hps, (hwritten.page?_of_not_mem hnot).symm.trans hq,
      hwritten.sameFiles hs, hw⟩

end Engine
end PageStore
