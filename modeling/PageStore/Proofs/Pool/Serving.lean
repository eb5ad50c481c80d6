import PageStore.Proofs.Pool.Writeback

/-!
# What a granted request does

`Served` lists everything that can come of a granted request: it fails or looks
at a page, and only clean pages came or went; an insert passes a full page, or
finds that the file has grown; a row is put on the page or deleted from it; or
a page is added to the file, which may still fail to enter the cache.

Results:
* `serve_spec`: nothing else can happen.
* `Served.backed`: a granted request keeps the engine backed.
* `Served.coherent`: a request that owns its page if it means to change it
  keeps the engine coherent.
* `Served.dirty`: dirty pages stay with whoever made them dirty.
* `turn_cases`: a turn serves its request, puts it to sleep, or fails it.
-/
namespace PageStore

/-- A row for a registered table whose layout it follows, to be put where the
cache sees it. -/
structure Placement.Proper (job : Placement) (s : Store) : Prop where
  file : s.file? job.file.id = some job.file
  tuple : job.tuple.Sound
  agrees : job.tuple.layout.agrees job.file.layout = true
  installs : job.installs = true

/-- The request is for a page of the table that it means to change, and exclusive then. -/
def LockRequest.Proper (r : LockRequest Purpose) (s : Store) : Prop :=
  match r.purpose with
  | .hold | .fetch => True
  | .place job _ | .append job =>
    job.Proper s ∧ r.page.table = job.file.id ∧ r.mode = .exclusive
  | .remove record => r.page = record.page ∧ r.mode = .exclusive

namespace Engine

/-- A change that a purpose may make to a page. -/
inductive Edits : Purpose → Page → Page → Prop
  | place {job : Placement} {limit : Nat} {old new : Page} {r : RecordId}
      (h : old.insert job.tuple = .ok (new, r)) : Edits (.place job limit) old new
  | remove {record : RecordId} {old new : Page} (h : old.delete (some record) = .ok new) :
      Edits (.remove record) old new

/-- The page that an append stores: without the row, or with it. -/
def firstImage (f : HeapFile) (p : PageId) (filled : Page) : Page :=
  match f.append with
  | .extendEmpty => Page.empty p f.layout f.pageSize
  | .writeThrough => filled

/-- The engine after a page was put into its file. -/
def stow (e : Engine) (m : Mount) (page : Page) : Engine := { e with store := e.store.put m page }

/-- The page entered the cache, and clean pages may have made room for it. -/
structure Entered (e e' : Engine) (p : PageId) (page : Page) : Prop where
  store : e'.store = e.store
  rules : Pool.SameRules e.pool e'.pool
  tidy : e'.pool.Tidy
  cached : e'.pool.page? p = some page
  other : ∀ q, q ≠ p → e'.pool.page? q = e.pool.page? q ∨
    e.pool.IsClean q ∧ e'.pool.page? q = none

/-- What can come of a request by `t` on page `p` that was granted in `e`. -/
inductive Served (e : Engine) (t : TxnId) (p : PageId) : Purpose → Engine → Advance → Prop
  | held : Served e t p .hold e (.done (.ok .locked))
  | failed {purpose : Purpose} {e' : Engine} {x : Error} (h : Turnover e e') (ht : e'.pool.Tidy) :
      Served e t p purpose e' (.done (.error x))
  | fetched {e' : Engine} {f : Handle} {page : Page} (h : Turnover e e') (ht : e'.pool.Tidy) :
      Served e t p .fetch e' (.done (.ok (.fetched f page)))
  | passed {job : Placement} {limit : Nat} {e' : Engine} {page : Page} (h : Turnover e e')
      (ht : e'.pool.Tidy) (hp : e.visible? p = some page) (hf : page.grid.Full)
      (hc : e'.pool.page? p = some page) :
      Served e t p (.place job limit) e' (HeapFile.nextPlace job (p.index + 1) limit)
  | changed {purpose : Purpose} {e1 e' : Engine} {old new : Page} (h : Turnover e e1)
      (ht : e1.pool.Tidy) (hp : e.visible? p = some old) (hd : Edits purpose old new)
      (hn : Entered e1 e' p (new.withDirtier (some t))) :
      Served e t p purpose e' (.done (.ok (.changed (new.withDirtier (some t)))))
  | overtaken {job : Placement} {count : Nat} (hc : count = e.store.pages p.table)
      (hm : count ≤ HeapFile.maxPages) (hne : count ≠ p.index) :
      Served e t p (.append job) e (HeapFile.nextPlace job p.index count)
  | stranded {job : Placement} {m : Mount} {filled : Page} {r : RecordId}
      (hm : e.store.catalog[p.table]? = some m) (hj : m.file = job.file)
      (hi : p.index = e.store.pages p.table)
      (hf : (Page.empty p m.file.layout m.file.pageSize).insert job.tuple = .ok (filled, r)) :
      Served e t p (.append job) (e.stow m (firstImage m.file p filled))
        (.done (.error (.noEvictablePage e.pool.cached.size)))
  | appended {job : Placement} {m : Mount} {filled : Page} {r : RecordId} {e' : Engine}
      (hm : e.store.catalog[p.table]? = some m) (hj : m.file = job.file)
      (hi : p.index = e.store.pages p.table) (hx : p.index ≤ HeapFile.maxPages)
      (hf : (Page.empty p m.file.layout m.file.pageSize).insert job.tuple = .ok (filled, r))
      (hn : Entered (e.stow m (firstImage m.file p filled)) e' p (filled.withDirtier (some t))) :
      Served e t p (.append job) e' (.done (.ok (.changed (filled.withDirtier (some t)))))

variable {e e' : Engine} {t : TxnId} {p : PageId}

/-! ## Nothing else can happen -/

theorem entered_replace (ht : e.pool.Tidy) {f : Frame} (hf : e.pool.cached[p]? = some f) (page : Page) :
    Entered e { e with pool := e.pool.replace p f page t } p (page.withDirtier (some t)) := by
  refine ⟨rfl, ⟨rfl, rfl, rfl⟩, ?_, ?_, ?_⟩
  · exact ht.put (.inl (Std.TreeMap.mem_iff_isSome_getElem?.2 (by rw [hf]; rfl)))
  · exact (Pool.page?_put _ _ _ _).trans (if_pos rfl)
  · intro q hq
    exact .inl ((Pool.page?_put _ _ _ _).trans (if_neg hq))

theorem servePlace_spec (ht : e.pool.Tidy) {job : Placement} {limit : Nat} :
    Served e t p (.place job limit) (e.servePlace t p job limit).1 (e.servePlace t p job limit).2 := by
  have ht := tidy_load ht p
  unfold servePlace
  split
  · next e1 x hl =>
    rw [hl] at ht
    exact .failed (load_turnover hl) ht
  · next e1 f hl =>
    rw [hl] at ht
    have hturn := load_turnover hl
    obtain ⟨hf, hv⟩ := load_eq_ok hl
    split
    · next hz =>
      exact .passed hturn ht hv (Page.freeCount_eq_zero_iff.1 hz) (Pool.page?_eq_some.2 ⟨f, hf, rfl⟩)
    · split
      · exact .failed hturn ht
      · next page r hi => exact .changed hturn ht hv (.place hi) (entered_replace ht hf page)

theorem serveRemove_spec (ht : e.pool.Tidy) {record : RecordId} :
    Served e t p (.remove record) (e.serveRemove t p record).1 (e.serveRemove t p record).2 := by
  have ht := tidy_load ht p
  unfold serveRemove
  split
  · next e1 x hl =>
    rw [hl] at ht
    exact .failed (load_turnover hl) ht
  · next e1 f hl =>
    rw [hl] at ht
    have hturn := load_turnover hl
    obtain ⟨hf, hv⟩ := load_eq_ok hl
    split
    · exact .failed hturn ht
    · next page hd => exact .changed hturn ht hv (.remove hd) (entered_replace ht hf page)

theorem serveFetch_spec (ht : e.pool.Tidy) :
    Served e t p .fetch (e.serveFetch p).1 (e.serveFetch p).2 := by
  have ht := tidy_load ht p
  unfold serveFetch
  split
  · next e1 x hl =>
    rw [hl] at ht
    exact .failed (load_turnover hl) ht
  · next e1 f hl =>
    rw [hl] at ht
    exact .fetched (load_turnover hl) ht

/-- A new page has room for a row. -/
theorem not_full_empty {f : HeapFile} (h : Geometry.slotCount f.pageSize f.layout.width ≠ 0) :
    ¬(Page.empty p f.layout f.pageSize).grid.Full := by
  rw [Page.grid_empty]
  intro hf
  have := hf none (List.mem_replicate.2 ⟨h, rfl⟩)
  cases this

section
variable {job : Placement} (hj : job.Proper e.store) (hp : p.table = job.file.id)

include hj hp

/-- The table of a proper row is registered. -/
theorem mount_of_proper : ∃ m, e.store.catalog[p.table]? = some m ∧ m.file = job.file ∧
    e.store.pages p.table = job.file.fileSize e.store.volume / job.file.pageSize := by
  obtain ⟨m, hm, hmf⟩ := Option.map_eq_some_iff.1 hj.file
  rw [← hp] at hm
  exact ⟨m, hm, hmf, by rw [Store.pages_of_mount hm, hmf]⟩

variable (hb : Backed e)

include hb

/-- An append at the end of the file does not fail. -/
theorem appendPage_isOk (hi : p.index = e.store.pages p.table) :
    ∃ m filled r, e.store.catalog[p.table]? = some m ∧ m.file = job.file ∧
      (Page.empty p m.file.layout m.file.pageSize).insert job.tuple = .ok (filled, r) ∧
      job.file.appendPage e.store.volume p.index job.tuple =
        .ok ((e.store.put m (firstImage m.file p filled)).volume, filled) := by
  obtain ⟨m, hm, hmf, hpages⟩ := mount_of_proper hj hp
  obtain ⟨filled, r, hf⟩ := Page.insert_isOk (p := Page.empty p m.file.layout m.file.pageSize)
    (by rw [hmf]; exact hj.agrees) (not_full_empty (hb.catalog.slots _ _ hm))
  refine ⟨m, filled, r, hm, hmf, hf, ?_⟩
  have hfid : filled.id = p ∧ filled.size = m.file.pageSize := by
    obtain ⟨slot, -, -, -, rfl⟩ := Page.insert_eq_ok hf
    exact ⟨rfl, rfl⟩
  have hwrite : ∀ page : Page, page.id = p → page.size = job.file.pageSize →
      job.file.writePage e.store.volume page = .ok (e.store.put m page).volume := by
    intro page hid hsize
    refine HeapFile.writePage_eq_ok_iff.2 ⟨by rw [hid, hp], hsize, ?_, by rw [Store.put, hmf]⟩
    rw [hid, hi, hpages]
    exact Nat.le_refl _
  have hidp : (⟨job.file.id, p.index⟩ : PageId) = p := by rw [← hp]
  rw [hmf] at hf hfid ⊢
  unfold HeapFile.appendPage firstImage
  rw [hidp]
  dsimp only
  cases job.file.append with
  | extendEmpty =>
    dsimp only
    rw [hwrite _ rfl rfl]
    dsimp only
    rw [hf]
  | writeThrough =>
    dsimp only
    rw [hf]
    dsimp only
    rw [hwrite _ hfid.1 hfid.2]

theorem serveAppend_spec :
    Served e t p (.append job) (e.serveAppend t p job).1 (e.serveAppend t p job).2 := by
  obtain ⟨-, -, -, hpages⟩ := mount_of_proper hj hp
  unfold serveAppend
  split
  · exact .failed (.refl e) hb.tidy
  · next count hcount =>
    obtain ⟨hcount, hmax⟩ := HeapFile.pageCount_eq_ok_iff.1 hcount
    rw [← hpages] at hcount
    split
    · next hne => exact .overtaken hcount hmax hne
    · next hne =>
      have hi : p.index = e.store.pages p.table := (Decidable.not_not.1 hne).symm.trans hcount
      obtain ⟨m, filled, r, hm, hmf, hf, happend⟩ := appendPage_isOk hj hp hb hi
      rw [happend]
      dsimp only
      unfold enter
      rw [if_pos hj.installs]
      split
      · next x hx =>
        obtain rfl := Pool.install_eq_error hx
        exact .stranded hm hmf hi hf
      · next pool f hin =>
        obtain ⟨hrules, hfp, hcached, hother⟩ := Pool.install_eq_ok hin
        refine .appended hm hmf hi (by omega) hf ⟨rfl, hrules, ?_, ?_, hother⟩
        · exact hb.tidy.install hin
        · exact Pool.page?_eq_some.2 ⟨f, hcached, hfp⟩

end

/-- Nothing but what `Served` lists comes of a granted request. -/
theorem serve_spec (hb : Backed e) {mode : LockMode} {purpose : Purpose}
    (hr : LockRequest.Proper ⟨t, p, mode, purpose⟩ e.store) :
    Served e t p purpose (e.serve t p purpose).1 (e.serve t p purpose).2 := by
  cases purpose with
  | hold => exact .held
  | fetch => exact serveFetch_spec hb.tidy
  | place job limit => exact servePlace_spec hb.tidy
  | append job => exact serveAppend_spec hr.1 hr.2.1 hb
  | remove record => exact serveRemove_spec hb.tidy

/-! ## The engine stays coherent -/

/-- A change keeps a page what it is and where it is. -/
theorem Edits.sound {purpose : Purpose} {old new : Page} {s : Store} (h : Edits purpose old new)
    (hr : ∀ job limit, purpose = .place job limit → job.tuple.Sound) (hs : old.Sound)
    (hf : s.Fits old) : new.id = old.id ∧ new.Sound ∧ s.Fits new := by
  cases h with
  | place h =>
    have hsound := hs.insert (hr _ _ rfl) h
    obtain ⟨slot, -, -, -, rfl⟩ := Page.insert_eq_ok h
    exact ⟨rfl, hsound, hf⟩
  | remove h =>
    have hsound := hs.delete h
    obtain ⟨r, -, -, -, rfl⟩ := Page.delete_eq_ok h
    exact ⟨rfl, hsound, hf⟩

section
variable {page : Page} (h : Entered e e' p (page.withDirtier (some t)))

include h

/-- The page is the only one that may have become dirty. -/
theorem Entered.cached_or {q : PageId} {page' : Page} (hq : e'.pool.page? q = some page') :
    q = p ∧ page' = page.withDirtier (some t) ∨ e.pool.page? q = some page' :=
  cached_modify h.cached h.other hq

theorem Backed.entered (hb : Backed e) (hid : page.id = p) (hs : page.Sound) (hf : e.store.Fits page)
    (hold : ∃ old, e.store.page? p = some old) : Backed e' :=
  hb.modify h.store h.cached h.other ⟨hid, hs.withDirtier _, hf⟩ hold h.tidy
    (by rw [Page.withDirtier]; simp)

theorem Coherent.entered (hc : Coherent e) (hid : page.id = p) (hs : page.Sound) (hf : e.store.Fits page)
    (hown : e.pool.locks.Owns t p) (hold : ∃ old, e.store.page? p = some old) : Coherent e' :=
  hc.modify h.store h.cached h.other ⟨hid, hs.withDirtier _, hf⟩ hold h.rules h.tidy rfl hown

end

section
variable {m : Mount} {job : Placement} {filled : Page} {r : RecordId}
  (hm : e.store.catalog[p.table]? = some m) (hj : job.tuple.Sound)
  (hf : (Page.empty p m.file.layout m.file.pageSize).insert job.tuple = .ok (filled, r))

include hj hf

/-- A new page, with its row or without, is a sound page of its table. -/
theorem new_page :
    (filled.id = p ∧ filled.Sound ∧ filled.layout = m.file.layout ∧ filled.size = m.file.pageSize) ∧
      let page := firstImage m.file p filled
      page.id = p ∧ page.Sound ∧ page.layout = m.file.layout ∧ page.size = m.file.pageSize := by
  have hfilled : filled.id = p ∧ filled.Sound ∧ filled.layout = m.file.layout ∧
      filled.size = m.file.pageSize := by
    have hs := (Page.sound_empty p m.file.layout m.file.pageSize).insert hj hf
    obtain ⟨slot, -, -, -, rfl⟩ := Page.insert_eq_ok hf
    exact ⟨rfl, hs, rfl, rfl⟩
  refine ⟨hfilled, ?_⟩
  unfold firstImage
  cases m.file.append with
  | extendEmpty => exact ⟨rfl, Page.sound_empty _ _ _, rfl, rfl⟩
  | writeThrough => exact hfilled

include hm

/-- An append writes after the last page, which nobody has cached. -/
theorem Backed.stow (hb : Backed e) (hi : p.index = e.store.pages p.table) :
    Backed (e.stow m (firstImage m.file p filled)) ∧
      ∀ q, (e.stow m (firstImage m.file p filled)).store.page? q =
        if q = p then some (firstImage m.file p filled).asStored else e.store.page? q := by
  obtain ⟨-, hid, hs, hl, hsize⟩ := new_page hj hf
  have hn := hb.not_cached (Nat.le_of_eq hi.symm)
  rw [← hid] at hm hi
  refine ⟨hb.put hm hs hl hsize (Nat.le_of_eq hi) rfl hb.tidy (.inl ?_) fun _ _ => rfl, ?_⟩
  · rw [hid]
    exact hn.1
  · intro q
    have := Store.page?_put hb.catalog hm hs hsize (Nat.le_of_eq hi) hl q
    rw [hid] at this
    exact this

theorem Coherent.stow (hc : Coherent e) (hi : p.index = e.store.pages p.table) :
    Coherent (e.stow m (firstImage m.file p filled)) ∧
      ∀ q, (e.stow m (firstImage m.file p filled)).store.page? q =
        if q = p then some (firstImage m.file p filled).asStored else e.store.page? q := by
  obtain ⟨hb, hstored⟩ := hc.toBacked.stow hm hj hf hi
  exact ⟨hc.of_backed hb rfl fun _ _ _ hp _ => hp, hstored⟩

end

/-- A granted request keeps the engine backed. -/
theorem Served.backed {mode : LockMode} {purpose : Purpose} {a : Advance}
    (h : Served e t p purpose e' a) (hb : Backed e)
    (hr : LockRequest.Proper ⟨t, p, mode, purpose⟩ e.store) : Backed e' := by
  cases h with
  | held => exact hb
  | failed h ht => exact hb.reload h.reload ht
  | fetched h ht => exact hb.reload h.reload ht
  | passed h ht => exact hb.reload h.reload ht
  | overtaken => exact hb
  | stranded hm hj hi hf => exact (hb.stow hm hr.1.tuple hf hi).1
  | changed h ht hp hd hn =>
    obtain ⟨hid, hs, hf, hold⟩ := hb.visible hp
    have hrow : ∀ job limit, purpose = .place job limit → job.tuple.Sound := by
      rintro job limit rfl
      exact hr.1.tuple
    obtain ⟨hid', hs', hf'⟩ := hd.sound hrow hs hf
    refine (hb.reload h.reload ht).entered hn (hid'.trans hid) hs' ?_ ?_
    · rw [h.store]; exact hf'
    · rw [h.store]; exact hold
  | appended hm hj hi hx hf hn =>
    obtain ⟨hb1, hstored⟩ := hb.stow hm hr.1.tuple hf hi
    obtain ⟨⟨hid, hs, hl, hsize⟩, -⟩ := new_page hr.1.tuple hf
    exact hb1.entered hn hid hs ⟨_, hid ▸ hm, hl, hsize⟩ ⟨_, (hstored p).trans (if_pos rfl)⟩

/-- A page that is dirty afterwards was so before, or it is the one that was
asked for, to be changed. -/
theorem Served.dirtied {mode : LockMode} {purpose : Purpose} {a : Advance}
    (h : Served e t p purpose e' a) (hcat : e.store.catalog.Sound)
    (hr : LockRequest.Proper ⟨t, p, mode, purpose⟩ e.store) {q : PageId} {page : Page} {u : TxnId}
    (hq : e'.pool.page? q = some page) (hd : page.dirtier = some u) :
    e.pool.page? q = some page ∨ q = p ∧ u = t ∧ mode = .exclusive := by
  have hdirty : page.dirtier ≠ none := by rw [hd]; simp
  have entered : ∀ {e1 : Engine} {new : Page}, Entered e1 e' p (new.withDirtier (some t)) →
      mode = .exclusive → e1.pool.page? q = some page ∨ q = p ∧ u = t ∧ mode = .exclusive := by
    intro e1 new hn hx
    rcases hn.cached_or hq with ⟨rfl, rfl⟩ | h1
    · cases hd
      exact .inr ⟨rfl, rfl, hx⟩
    · exact .inl h1
  cases h with
  | held => exact .inl hq
  | failed h ht => exact .inl (h.of_dirty hcat hq hdirty)
  | fetched h ht => exact .inl (h.of_dirty hcat hq hdirty)
  | passed h ht => exact .inl (h.of_dirty hcat hq hdirty)
  | overtaken => exact .inl hq
  | stranded => exact .inl hq
  | changed h ht hp hx hn =>
    have hexclusive : mode = .exclusive := by
      cases hx with
      | place => exact hr.2.2
      | remove => exact hr.2
    rcases entered hn hexclusive with h1 | hself
    · exact .inl (h.of_dirty hcat h1 hdirty)
    · exact .inr hself
  | appended hm hj hi hx hf hn =>
    have hentered := entered hn hr.2.2
    exact hentered

/-- Dirty pages stay dirty, each for its dirtier. -/
theorem Served.dirty {mode : LockMode} {purpose : Purpose} {a : Advance}
    (h : Served e t p purpose e' a) (hc : Coherent e)
    (hr : LockRequest.Proper ⟨t, p, mode, purpose⟩ e.store)
    (hown : mode = .exclusive → e.pool.locks.Owns t p) {q : PageId} {page : Page} {u : TxnId}
    (hq : e.pool.page? q = some page) (hd : page.dirtier = some u) :
    ∃ page', e'.pool.page? q = some page' ∧ page'.dirtier = some u ∧ (page' = page ∨ q = p ∧ u = t) := by
  have hdirty : page.dirtier ≠ none := by rw [hd]; simp
  have entered : ∀ {e1 : Engine} {new : Page}, Entered e1 e' p (new.withDirtier (some t)) →
      e.pool.locks.Owns t p → e1.pool.page? q = some page →
      ∃ page', e'.pool.page? q = some page' ∧ page'.dirtier = some u ∧ (page' = page ∨ q = p ∧ u = t) := by
    intro e1 new hn ho h1
    by_cases hqp : q = p
    · subst hqp
      obtain rfl : u = t := ho.eq hc.locks (hc.owned q page u hq hd)
      exact ⟨_, hn.cached, rfl, .inr ⟨rfl, rfl⟩⟩
    · rcases hn.other q hqp with he | ⟨hclean, -⟩
      · exact ⟨page, he.trans h1, hd, .inl rfl⟩
      · exact absurd (hclean page h1) hdirty
  cases h with
  | held => exact ⟨page, hq, hd, .inl rfl⟩
  | failed h => exact ⟨page, h.dirty hq hdirty, hd, .inl rfl⟩
  | fetched h => exact ⟨page, h.dirty hq hdirty, hd, .inl rfl⟩
  | passed h => exact ⟨page, h.dirty hq hdirty, hd, .inl rfl⟩
  | overtaken => exact ⟨page, hq, hd, .inl rfl⟩
  | stranded => exact ⟨page, hq, hd, .inl rfl⟩
  | changed h ht hp hx hn =>
    refine entered hn (hown ?_) (h.dirty hq hdirty)
    cases hx with
    | place => exact hr.2.2
    | remove => exact hr.2
  | appended hm hj hi hx hf hn => exact entered hn (hown hr.2.2) hq

/-- Locks are not touched once a request is granted. -/
theorem Served.locks {purpose : Purpose} {a : Advance} (h : Served e t p purpose e' a) :
    e'.pool.locks = e.pool.locks := by
  cases h with
  | held => rfl
  | failed h => exact h.rules.locks
  | fetched h => exact h.rules.locks
  | passed h => exact h.rules.locks
  | overtaken => rfl
  | stranded => rfl
  | changed h ht hp hd hn => exact hn.rules.locks.trans h.rules.locks
  | appended hm hj hi hx hf hn => exact hn.rules.locks

/-- A granted request keeps the engine coherent; if it means to change its
page, it owns it. -/
theorem Served.coherent {mode : LockMode} {purpose : Purpose} {a : Advance}
    (h : Served e t p purpose e' a) (hc : Coherent e)
    (hr : LockRequest.Proper ⟨t, p, mode, purpose⟩ e.store)
    (hown : mode = .exclusive → e.pool.locks.Owns t p) : Coherent e' := by
  refine ⟨h.backed hc.toBacked hr, h.locks ▸ hc.locks, fun q page u hq hd => ?_⟩
  rw [h.locks]
  rcases h.dirtied hc.catalog hr hq hd with h1 | ⟨rfl, rfl, hx⟩
  · exact hc.owned q page u h1 hd
  · exact hown hx

/-! ## The next request -/

theorem Served.catalog {purpose : Purpose} {a : Advance} (h : Served e t p purpose e' a) :
    e'.store.catalog = e.store.catalog := by
  cases h with
  | held => rfl
  | failed h => rw [h.store]
  | fetched h => rw [h.store]
  | passed h => rw [h.store]
  | overtaken => rfl
  | stranded => rfl
  | changed h ht hp hd hn => rw [hn.store, h.store]
  | appended hm hj hi hx hf hn => rw [hn.store]; rfl

theorem Served.capacity {purpose : Purpose} {a : Advance} (h : Served e t p purpose e' a) :
    e'.pool.capacity = e.pool.capacity := by
  cases h with
  | held => rfl
  | failed h => exact h.rules.capacity
  | fetched h => exact h.rules.capacity
  | passed h => exact h.rules.capacity
  | overtaken => rfl
  | stranded => rfl
  | changed h ht hp hd hn => exact hn.rules.capacity.trans h.rules.capacity
  | appended hm hj hi hx hf hn => exact hn.rules.capacity

/-- As long as tables keep their files, what is asked for stays as proper as it is. -/
theorem proper_of_files {r : LockRequest Purpose} {s s' : Store}
    (h : ∀ t f, s.file? t = some f → s'.file? t = some f) (hr : r.Proper s) : r.Proper s' := by
  have hjob : ∀ job : Placement, job.Proper s → job.Proper s' := by
    intro job hj
    exact ⟨h _ _ hj.file, hj.tuple, hj.agrees, hj.installs⟩
  unfold LockRequest.Proper at *
  split at hr
  · trivial
  · trivial
  · exact ⟨hjob _ hr.1, hr.2⟩
  · exact ⟨hjob _ hr.1, hr.2⟩
  · exact hr

theorem nextPlace_ne_done (job : Placement) (page count : Nat) (result : Except Error Outcome) :
    HeapFile.nextPlace job page count ≠ .done result := by
  unfold HeapFile.nextPlace
  split <;> simp

theorem proper_nextPlace {job : Placement} {s : Store} (hj : job.Proper s) {page count : Nat}
    {r : LockRequest Purpose} (h : progressOf t (HeapFile.nextPlace job page count) = .next r) :
    r.txn = t ∧ r.Proper s := by
  unfold HeapFile.nextPlace at h
  split at h <;> cases h <;> exact ⟨rfl, hj, rfl, rfl⟩

/-- What an operation asks for next is as proper as what it asked for before. -/
theorem Served.proper {mode : LockMode} {purpose : Purpose} {a : Advance}
    (h : Served e t p purpose e' a) (hr : LockRequest.Proper ⟨t, p, mode, purpose⟩ e.store)
    {r : LockRequest Purpose} (hn : progressOf t a = .next r) : r.txn = t ∧ r.Proper e'.store := by
  have hcat := h.catalog
  suffices h' : r.txn = t ∧ r.Proper e.store by
    exact ⟨h'.1, proper_of_files (fun u _ hf => (Store.file_of_catalog hcat u).trans hf) h'.2⟩
  cases h with
  | held => cases hn
  | failed => cases hn
  | fetched => cases hn
  | passed => exact proper_nextPlace hr.1 hn
  | overtaken => exact proper_nextPlace hr.1 hn
  | stranded => cases hn
  | changed => cases hn
  | appended => cases hn

/-! ## Turns -/

/-- What a turn comes to: its request is granted and served, or sleeps, or fails. -/
theorem turn_cases (e : Engine) (ticket : Ticket) (r : LockRequest Purpose) (which : Turn) :
    let asked := e.pool.locks.request ticket r which
    (asked.2 = .granted ∧
      e.turn ticket r which = (((e.withLocks asked.1).serve r.txn r.page r.purpose).1,
        progressOf r.txn ((e.withLocks asked.1).serve r.txn r.page r.purpose).2)) ∨
    (asked.2 = .asleep ∧ e.turn ticket r which = (e.withLocks asked.1, .asleep)) ∨
    (asked.2 = .aborted ∧ e.turn ticket r which =
      ((e.withLocks asked.1).countAbort, .done (.error (.transactionAborted r.txn)))) := by
  intro asked
  unfold turn
  split
  · next locks h => exact .inl ⟨congrArg Prod.snd h, by rw [show asked = _ from h]⟩
  · next locks h => exact .inr (.inl ⟨congrArg Prod.snd h, by rw [show asked = _ from h]⟩)
  · next locks h => exact .inr (.inr ⟨congrArg Prod.snd h, by rw [show asked = _ from h]⟩)

theorem Coherent.request (hc : Coherent e) (ticket : Ticket) (r : LockRequest Purpose) (which : Turn) :
    Coherent (e.withLocks (e.pool.locks.request ticket r which).1) :=
  hc.withLocks (hc.locks.request ticket r which) fun _ _ _ _ _ ho => ho.request ticket r which

theorem Coherent.countAbort (hc : Coherent e) : Coherent e.countAbort :=
  hc.aside rfl rfl rfl rfl

end Engine
end PageStore
