import PageStore.Proofs.Pool.Orderly
import PageStore.Proofs.Pool.Plain
import PageStore.Proofs.Pool.WriteOrder

/-!
# Engines that differ only in what they cache

Two engines are `Alike` if they have the same storage, the same locks and the same dirty
pages. They may have different capacities and counters, and may cache different clean
pages. As long as both are backed and reads do not fail, nobody can tell: a clean page in
the cache of one is the page that the other has to read.

Results:
* `Backed.sight_plain`: what a load finds depends on storage and dirty pages alone.
* `Alike.serve`: a granted request comes to the same in both, unless one of them finds
  nothing to evict, and they are alike afterwards.
* `Alike.flushEach`, `Alike.discard`, `Alike.restoreEach`: so do write-backs and restores.
-/
namespace PageStore

/-- No read is made to fail. -/
def Store.Readable (s : Store) : Prop :=
  ∀ (t : TableId) (m : Mount), s.catalog[t]? = some m → m.faults.unreadable = []

namespace Engine

/-- A dirty page as it is seen; none for pages that are clean or not cached. -/
def draft? (e : Engine) (p : PageId) : Option Page :=
  ((e.pool.page? p).filter Page.isDirty).map Page.plain

/-- Capacity, counters and clean pages may differ. -/
structure Alike (e e' : Engine) : Prop where
  store : e'.store = e.store
  locks : e'.pool.locks = e.pool.locks
  draft : ∀ p, e'.draft? p = e.draft? p

variable {e e' e1 e1' : Engine} {t : TxnId} {p : PageId}

theorem Alike.symm (h : Alike e e') : Alike e' e :=
  ⟨h.store.symm, h.locks.symm, fun p => (h.draft p).symm⟩

/-! ## Drafts -/

theorem draft_of_clean (h : e.pool.IsClean p) : e.draft? p = none := by
  rw [draft?, Option.map_eq_none_iff, Option.filter_eq_none_iff]
  intro page hp
  rw [Bool.not_eq_true, Pool.isDirty_eq_false]
  exact h page hp

theorem draft_of_dirty {page : Page} (hp : e.pool.page? p = some page) (hd : page.dirtier ≠ none) :
    e.draft? p = some page.plain := by
  have hdirty : page.isDirty = true := Option.isSome_iff_ne_none.2 hd
  rw [draft?, hp, Option.filter_some, if_pos hdirty]
  rfl

/-- A draft is of a dirty page. -/
theorem dirty_of_draft {draft : Page} (h : e.draft? p = some draft) :
    ∃ page, e.pool.page? p = some page ∧ page.dirtier ≠ none ∧ page.plain = draft := by
  obtain ⟨page, hp, hplain⟩ := Option.map_eq_some_iff.1 h
  obtain ⟨hp, hd⟩ := Option.filter_eq_some_iff.1 hp
  exact ⟨page, hp, Option.isSome_iff_ne_none.1 hd, hplain⟩

theorem clean_of_draft (h : e.draft? p = none) : e.pool.IsClean p := by
  intro page hp
  by_contra hd
  rw [draft_of_dirty hp hd] at h
  cases h

/-- The draft of a page depends on nothing but its cached copy. -/
theorem draft_congr (h : e1.pool.page? p = e.pool.page? p) : e1.draft? p = e.draft? p := by
  rw [draft?, draft?, h]

theorem draft_turnover (hc : e.store.catalog.Sound) (h : Turnover e e1) (p : PageId) :
    e1.draft? p = e.draft? p := by
  rcases h.page p with hp | ⟨hclean, hp⟩
  · exact draft_congr hp
  · rw [draft_of_clean hclean]
    refine draft_of_clean fun page hpage => ?_
    rcases hp with hn | hs
    · rw [hn] at hpage
      cases hpage
    · exact (Store.sound_page? hc (hs.symm.trans hpage)).2.1

theorem Alike.turnover (h : Alike e e') (hc : e.store.catalog.Sound) (h1 : Turnover e e1)
    (h1' : Turnover e' e1') : Alike e1 e1' := by
  refine ⟨?_, ?_, fun p => ?_⟩
  · rw [h1.store, h1'.store, h.store]
  · rw [h1.rules.locks, h1'.rules.locks, h.locks]
  · rw [draft_turnover hc h1, draft_turnover (h.store ▸ hc) h1', h.draft]

theorem Alike.withLocks (h : Alike e e') (locks : LockTable Purpose) :
    Alike (e.withLocks locks) (e'.withLocks locks) :=
  ⟨h.store, rfl, h.draft⟩

theorem Alike.withStore (h : Alike e e') (s : Store) :
    Alike { e with store := s } { e' with store := s } :=
  ⟨rfl, h.locks, h.draft⟩

/-! ## Loads -/

/-- What a load looks for: the cached page, or else the one that is read. -/
def sight (e : Engine) (p : PageId) : Except Error Page :=
  match e.pool.page? p with
  | some page => .ok page
  | none => e.store.readPage p

theorem load_sight (e : Engine) (p : PageId) :
    (∃ n, (e.load p).2 = .error (.noEvictablePage n)) ∨
      (e.load p).2.map Frame.page = e.sight p := by
  unfold load sight Pool.hit Pool.page?
  cases e.pool.cached[p]? with
  | some f => exact .inr rfl
  | none =>
    dsimp only [Option.map_none]
    split
    · next x hx => exact .inr (by rw [hx]; rfl)
    · next page hpage =>
      split
      · next x hx =>
        obtain rfl := Pool.install_eq_error hx
        exact .inl ⟨_, rfl⟩
      · next pool f hf =>
        obtain ⟨-, rfl, -⟩ := Pool.install_eq_ok hf
        exact .inr (by rw [hpage]; rfl)

/-- A clean page looks as it does in storage, so it does not matter whether it is cached. -/
theorem Backed.sight_plain (hb : Backed e) (hread : e.store.Readable) (p : PageId) :
    (e.sight p).map Page.plain =
      (e.draft? p).elim ((e.store.readPage p).map Page.plain) Except.ok := by
  unfold sight
  cases hp : e.pool.page? p with
  | none =>
    rw [draft_of_clean fun page h => by rw [hp] at h; cases h]
    rfl
  | some page =>
    by_cases hd : page.dirtier = none
    · have hclean : e.pool.IsClean p := by
        intro page' h
        cases hp.symm.trans h
        exact hd
      obtain ⟨hid, hsound, m, hm, hl, hsize⟩ := hb.page p page hp
      obtain ⟨old, hold, hgrid⟩ := hb.stored p page hp
      obtain ⟨hid', hd', hsound', ⟨m', hm', hl', hsize'⟩, -⟩ := Store.sound_page? hb.catalog hold
      rw [hid] at hm
      rw [hid'] at hm'
      cases hm.symm.trans hm'
      have hfault : p.index ∉ m.faults.unreadable := by
        rw [hread _ m hm]
        exact List.not_mem_nil
      rw [draft_of_clean hclean, Store.readPage_of_page? hm hfault hold]
      exact congrArg Except.ok (hsound.plain_eq hsound' (hid.trans hid'.symm) (hl.trans hl'.symm)
        (hsize.trans hsize'.symm) (hd.trans hd'.symm) (hgrid hd).symm)
    · rw [draft_of_dirty hp hd]
      rfl

/-- What two loads of one page may come to. -/
inductive Loads : Except Error Frame → Except Error Frame → Prop
  | lacking {n : Nat} {r' : Except Error Frame} : Loads (.error (.noEvictablePage n)) r'
  | lacking' {n : Nat} {r : Except Error Frame} : Loads r (.error (.noEvictablePage n))
  | failed (x : Error) : Loads (.error x) (.error x)
  | found {f f' : Frame} (h : f'.page.plain = f.page.plain) : Loads (.ok f) (.ok f')

section
variable (hb : Backed e) (hb' : Backed e') (hread : e.store.Readable) (h : Alike e e')

include hb hb' hread h

theorem Alike.load (p : PageId) :
    Alike (e.load p).1 (e'.load p).1 ∧ Loads (e.load p).2 (e'.load p).2 := by
  refine ⟨h.turnover hb.catalog (load_turnover rfl) (load_turnover rfl), ?_⟩
  have hsight : (e'.sight p).map Page.plain = (e.sight p).map Page.plain := by
    rw [hb.sight_plain hread, hb'.sight_plain (by rwa [h.store]), h.draft, h.store]
  rcases load_sight e p with ⟨n, hn⟩ | hs
  · rw [hn]
    exact .lacking
  rcases load_sight e' p with ⟨n, hn⟩ | hs'
  · rw [hn]
    exact .lacking'
  rw [← hs, ← hs'] at hsight
  cases hr : (e.load p).2 <;> cases hr' : (e'.load p).2 <;> rw [hr, hr'] at hsight
  · cases hsight
    exact .failed _
  · cases hsight
  · cases hsight
  · exact .found (Except.ok.inj hsight)

end

/-! ## Pages put into the cache -/

/-- What both caches get looks the same, and all else stays. -/
theorem Alike.enter (h : Alike e e') (hstore : e1'.store = e1.store)
    (hlocks : e1.pool.locks = e.pool.locks) (hlocks' : e1'.pool.locks = e'.pool.locks)
    {page page' : Page} (hplain : page'.plain = page.plain) (hd : page.dirtier = some t)
    (hp : e1.pool.page? p = some page) (hp' : e1'.pool.page? p = some page')
    (hother : ∀ q, q ≠ p →
      e1.pool.page? q = e.pool.page? q ∨ e.pool.IsClean q ∧ e1.pool.page? q = none)
    (hother' : ∀ q, q ≠ p →
      e1'.pool.page? q = e'.pool.page? q ∨ e'.pool.IsClean q ∧ e1'.pool.page? q = none) :
    Alike e1 e1' := by
  have hdraft : ∀ {a b : Engine} {q : PageId}, b.pool.page? q = a.pool.page? q ∨
      a.pool.IsClean q ∧ b.pool.page? q = none → b.draft? q = a.draft? q := by
    rintro a b q (hq | ⟨hclean, hq⟩)
    · exact draft_congr hq
    · rw [draft_of_clean hclean, draft_of_clean fun page hpage => by rw [hq] at hpage; cases hpage]
  refine ⟨hstore, hlocks'.trans (h.locks.trans hlocks.symm), fun q => ?_⟩
  by_cases hq : q = p
  · subst hq
    have hd' : page'.dirtier = some t := (congrArg Page.dirtier hplain).trans hd
    rw [draft_of_dirty hp (by rw [hd]; simp), draft_of_dirty hp' (by rw [hd']; simp), hplain]
  · rw [hdraft (hother q hq), hdraft (hother' q hq), h.draft]

theorem Alike.replace (h : Alike e e') (t : TxnId) (p : PageId) (f f' : Frame) {page page' : Page}
    (hplain : page'.plain = page.plain) :
    Alike { e with pool := e.pool.replace p f page t }
      { e' with pool := e'.pool.replace p f' page' t } := by
  have hput := Pool.page?_put e.pool p ⟨f.number, page.withDirtier (some t)⟩
  have hput' := Pool.page?_put e'.pool p ⟨f'.number, page'.withDirtier (some t)⟩
  exact h.enter h.store rfl rfl (congrArg (·.withDirtier (some t)) hplain) rfl
    ((hput p).trans (if_pos rfl)) ((hput' p).trans (if_pos rfl))
    (fun q hq => .inl ((hput q).trans (if_neg hq))) (fun q hq => .inl ((hput' q).trans (if_neg hq)))

/-! ## What a granted request does -/

/-- It comes to what looks the same, and leaves engines that are alike. -/
def Matching (x x' : Engine × Advance) : Prop := x'.2.plain = x.2.plain ∧ Alike x.1 x'.1

/-- What comes of a request that loads its page first. -/
def afterLoad (e : Engine) (p : PageId) (work : Engine → Frame → Engine × Advance) :
    Engine × Advance :=
  match e.load p with
  | (e, .error x) => (e, .done (.error x))
  | (e, .ok f) => work e f

theorem Alike.changed (h : Alike e e') (t : TxnId) (p : PageId) (f f' : Frame) {page page' : Page}
    (hplain : page'.plain = page.plain) :
    Matching
      ({ e with pool := e.pool.replace p f page t },
        .done (.ok (.changed (page.withDirtier (some t)))))
      ({ e' with pool := e'.pool.replace p f' page' t },
        .done (.ok (.changed (page'.withDirtier (some t))))) := by
  have hdirty : (page'.withDirtier (some t)).plain = (page.withDirtier (some t)).plain :=
    congrArg (·.withDirtier (some t)) hplain
  exact ⟨congrArg (fun page => Advance.done (.ok (.changed page))) hdirty,
    h.replace t p f f' hplain⟩

section
variable (hb : Backed e) (hb' : Backed e') (hread : e.store.Readable) (h : Alike e e')

include hb hb' hread h

/-- Pages that look the same are all that the work on them depends on. -/
theorem Alike.afterLoad {work : Engine → Frame → Engine × Advance}
    (hroom : (e.afterLoad p work).2.lacksRoom = false)
    (hroom' : (e'.afterLoad p work).2.lacksRoom = false)
    (hwork : ∀ (e1 e1' : Engine) (f f' : Frame), Alike e1 e1' → f'.page.plain = f.page.plain →
      Matching (work e1 f) (work e1' f')) :
    Matching (e.afterLoad p work) (e'.afterLoad p work) := by
  obtain ⟨halike, hloads⟩ := h.load hb hb' hread p
  unfold Engine.afterLoad at *
  generalize e.load p = l at *
  generalize e'.load p = l' at *
  obtain ⟨e1, r⟩ := l
  obtain ⟨e1', r'⟩ := l'
  cases hloads with
  | lacking => cases hroom
  | lacking' => cases hroom'
  | failed x => exact ⟨rfl, halike⟩
  | found hplain => exact hwork e1 e1' _ _ halike hplain

theorem Alike.serveFetch (hroom : (e.serveFetch p).2.lacksRoom = false)
    (hroom' : (e'.serveFetch p).2.lacksRoom = false) :
    Matching (e.serveFetch p) (e'.serveFetch p) := by
  refine h.afterLoad hb hb' hread hroom hroom' fun e1 e1' f f' halike hplain => ⟨?_, halike⟩
  exact congrArg (fun page => Advance.done (.ok (.fetched _ page))) hplain

theorem Alike.servePlace {job : Placement} {limit : Nat}
    (hroom : (e.servePlace t p job limit).2.lacksRoom = false)
    (hroom' : (e'.servePlace t p job limit).2.lacksRoom = false) :
    Matching (e.servePlace t p job limit) (e'.servePlace t p job limit) := by
  refine h.afterLoad hb hb' hread hroom hroom' fun e1 e1' f f' halike hplain => ?_
  have hfree : f'.page.freeCount = f.page.freeCount := by
    rw [← Page.freeCount_plain, hplain, Page.freeCount_plain]
  have hinsert := Page.insert_plain f'.page job.tuple
  rw [hplain, Page.insert_plain] at hinsert
  rw [hfree]
  split
  · exact ⟨rfl, halike⟩
  · rcases except_map_eq_map hinsert with ⟨x, hx, hx'⟩ | ⟨⟨new, _⟩, ⟨new', _⟩, hok, hok', hnew⟩
    · rw [hx, hx']
      exact ⟨rfl, halike⟩
    · rw [hok, hok']
      exact halike.changed t p f f' (congrArg Prod.fst hnew.symm)

theorem Alike.serveRemove {record : RecordId}
    (hroom : (e.serveRemove t p record).2.lacksRoom = false)
    (hroom' : (e'.serveRemove t p record).2.lacksRoom = false) :
    Matching (e.serveRemove t p record) (e'.serveRemove t p record) := by
  refine h.afterLoad hb hb' hread hroom hroom' fun e1 e1' f f' halike hplain => ?_
  have hdelete := Page.delete_plain f'.page (some record)
  rw [hplain, Page.delete_plain] at hdelete
  rcases except_map_eq_map hdelete with ⟨x, hx, hx'⟩ | ⟨new, new', hok, hok', hnew⟩
  · rw [hx, hx']
    exact ⟨rfl, halike⟩
  · rw [hok, hok']
    exact halike.changed t p f f' hnew.symm

end

/-- Both append the same page. -/
theorem Alike.serveAppend (h : Alike e e') {job : Placement}
    (hroom : (e.serveAppend t p job).2.lacksRoom = false)
    (hroom' : (e'.serveAppend t p job).2.lacksRoom = false) :
    Matching (e.serveAppend t p job) (e'.serveAppend t p job) := by
  unfold Engine.serveAppend at *
  rw [h.store] at *
  split
  · exact ⟨rfl, h⟩
  · next count hcount =>
    rw [hcount] at hroom hroom'
    dsimp only at hroom hroom'
    split
    · exact ⟨rfl, h⟩
    · next hne =>
      rw [if_neg hne] at hroom hroom'
      split
      · exact ⟨rfl, h.withStore _⟩
      · next volume page happend =>
        rw [happend] at hroom hroom'
        have hstored := h.withStore { e.store with volume }
        dsimp only [Engine.enter] at *
        split
        · next hinstalls =>
          rw [if_pos hinstalls] at hroom hroom'
          cases hi : e.pool.install p (page.withDirtier (some t)) with
          | error x =>
            rw [hi, Pool.install_eq_error hi] at hroom
            cases hroom
          | ok r =>
            cases hi' : e'.pool.install p (page.withDirtier (some t)) with
            | error x =>
              rw [hi', Pool.install_eq_error hi'] at hroom'
              cases hroom'
            | ok r' =>
              obtain ⟨hrules, hpage, hcached, hother⟩ := Pool.install_eq_ok hi
              obtain ⟨hrules', hpage', hcached', hother'⟩ := Pool.install_eq_ok hi'
              exact ⟨rfl, hstored.enter rfl hrules.locks hrules'.locks rfl rfl
                (Pool.page?_eq_some.2 ⟨_, hcached, hpage⟩)
                (Pool.page?_eq_some.2 ⟨_, hcached', hpage'⟩)
                hother hother'⟩
        · exact ⟨rfl, hstored⟩

/-- A granted request comes to the same in both. -/
theorem Alike.serve (hb : Backed e) (hb' : Backed e') (hread : e.store.Readable) (h : Alike e e')
    {purpose : Purpose} (hroom : (e.serve t p purpose).2.lacksRoom = false)
    (hroom' : (e'.serve t p purpose).2.lacksRoom = false) :
    Matching (e.serve t p purpose) (e'.serve t p purpose) := by
  cases purpose with
  | hold => exact ⟨rfl, h⟩
  | fetch => exact h.serveFetch hb hb' hread hroom hroom'
  | place job limit => exact h.servePlace hb hb' hread hroom hroom'
  | append job => exact h.serveAppend hroom hroom'
  | remove record => exact h.serveRemove hb hb' hread hroom hroom'

/-! ## Write-backs and restores -/

/-- What is dirty is listed alike. -/
theorem Alike.dirtyPages (h : Alike e e') (of : TxnId → Bool) :
    e'.pool.dirtyPages of = e.pool.dirtyPages of := by
  have hmem : ∀ {a b : Engine}, Alike a b →
      ∀ p ∈ a.pool.dirtyPages of, p ∈ b.pool.dirtyPages of := by
    intro a b h p hp
    obtain ⟨page, t, hcached, hd, hof⟩ := Pool.mem_dirtyPages.1 hp
    have hdraft := draft_of_dirty hcached (by rw [hd]; simp)
    rw [← h.draft] at hdraft
    obtain ⟨page', hcached', -, hplain⟩ := dirty_of_draft hdraft
    exact Pool.mem_dirtyPages.2 ⟨page', t, hcached', (congrArg Page.dirtier hplain).trans hd, hof⟩
  exact Pool.dirtyPages_eq (Pool.ascending_dirtyPages _ _) fun p => ⟨hmem h.symm p, hmem h p⟩

/-- One page that both write, or neither. -/
theorem Alike.flush (h : Alike e e') (p : PageId) :
    (∃ x, e.flush p = .error x ∧ e'.flush p = .error x) ∨
      ∃ e1 e1', e.flush p = .ok e1 ∧ e'.flush p = .ok e1' ∧ Alike e1 e1' := by
  cases hdraft : e.draft? p with
  | none =>
    have hclean : ∀ {a : Engine}, a.draft? p = none → a.flush p = .ok a := fun hd =>
      flush_of_clean fun page hp => Pool.isDirty_eq_false.2 (clean_of_draft hd page hp)
    exact .inr ⟨e, e', hclean hdraft, hclean ((h.draft p).trans hdraft), h⟩
  | some draft =>
    have hwrites : ∀ {a : Engine}, a.draft? p = some draft →
        ∃ f, a.pool.cached[p]? = some f ∧ f.page.plain = draft ∧
          a.flush p = (a.store.writePage draft).map fun s => a.wrote s p f := by
      intro a hd
      obtain ⟨page, hp, hdirty, rfl⟩ := dirty_of_draft hd
      obtain ⟨f, hf, rfl⟩ := Pool.page?_eq_some.1 hp
      refine ⟨f, hf, rfl, ?_⟩
      have hisDirty : f.page.isDirty = true := Option.isSome_iff_ne_none.2 hdirty
      rw [Engine.flush, hf, Store.writePage_plain]
      dsimp only
      rw [if_pos hisDirty]
      cases a.store.writePage f.page <;> rfl
    obtain ⟨f, hf, hplain, hflush⟩ := hwrites hdraft
    obtain ⟨f', hf', hplain', hflush'⟩ := hwrites ((h.draft p).trans hdraft)
    rw [hflush, hflush', h.store]
    cases e.store.writePage draft with
    | error x => exact .inl ⟨x, rfl, rfl⟩
    | ok s =>
      refine .inr ⟨_, _, rfl, rfl, rfl, h.locks, fun q => ?_⟩
      have hview := page?_wrote e s p f q
      have hview' := page?_wrote e' s p f' q
      by_cases hq : q = p
      · rw [if_pos hq] at hview hview'
        have hclean : (e.wrote s p f).pool.IsClean q := fun page hp => by
          cases hview.symm.trans hp
          rfl
        have hclean' : (e'.wrote s p f').pool.IsClean q := fun page hp => by
          cases hview'.symm.trans hp
          rfl
        exact (draft_of_clean hclean').trans (draft_of_clean hclean).symm
      · rw [if_neg hq] at hview hview'
        rw [draft_congr hview, draft_congr hview', h.draft]

theorem Alike.flushEach (ps : List PageId) : ∀ {e e' : Engine}, Alike e e' →
    (e'.flushEach ps).2 = (e.flushEach ps).2 ∧ Alike (e.flushEach ps).1 (e'.flushEach ps).1 := by
  induction ps with
  | nil => exact fun h => ⟨rfl, h⟩
  | cons p ps ih =>
    intro e e' h
    unfold Engine.flushEach
    rcases h.flush p with ⟨x, hx, hx'⟩ | ⟨e1, e1', h1, h1', halike⟩
    · rw [hx, hx']
      exact ⟨rfl, h⟩
    · rw [h1, h1']
      exact ih halike

theorem draft_drop (e : Engine) (p q : PageId) :
    ({ e with pool := e.pool.drop p } : Engine).draft? q = if q = p then none else e.draft? q := by
  have hview := page?_drop e.pool p q
  split
  · next hq =>
    rw [if_pos hq] at hview
    exact draft_of_clean fun page hp => by cases hview.symm.trans hp
  · next hq =>
    rw [if_neg hq] at hview
    exact draft_congr hview

theorem Alike.drop (h : Alike e e') (p : PageId) :
    Alike { e with pool := e.pool.drop p } { e' with pool := e'.pool.drop p } :=
  ⟨h.store, h.locks, fun q => by rw [draft_drop, draft_drop, h.draft]⟩

theorem Alike.discard (h : Alike e e') (p : PageId) :
    (e'.discard p).2 = (e.discard p).2 ∧ Alike (e.discard p).1 (e'.discard p).1 := by
  unfold Engine.discard
  rcases h.flush p with ⟨x, hx, hx'⟩ | ⟨e1, e1', h1, h1', halike⟩
  · rw [hx, hx']
    exact ⟨rfl, h⟩
  · rw [h1, h1']
    exact ⟨rfl, halike.drop p⟩

/-- A page that is restored is clean, or gone. -/
theorem draft_restore (hc : e.store.catalog.Sound) (p q : PageId) :
    (e.restore p).1.draft? q = if q = p then none else e.draft? q := by
  have hrestored := restored_restore e p
  split
  · next hq =>
    subst hq
    refine draft_of_clean fun page hpage => ?_
    rcases hrestored.listed q (List.mem_singleton.2 rfl) with hn | hs
    · rw [hn] at hpage
      cases hpage
    · exact (Store.sound_page? hc (hs.symm.trans hpage)).2.1
  · next hq => exact draft_congr (hrestored.other q fun hmem => hq (List.mem_singleton.1 hmem))

theorem Alike.restoreEach (ps : List PageId) :
    ∀ {e e' : Engine}, e.store.catalog.Sound → Alike e e' →
      (e'.restoreEach ps).2 = (e.restoreEach ps).2 ∧
        Alike (e.restoreEach ps).1 (e'.restoreEach ps).1 := by
  induction ps with
  | nil => exact fun _ h => ⟨rfl, h⟩
  | cons p ps ih =>
    intro e e' hc h
    have hstore := (restored_restore e p).reload.store
    have hstore' := (restored_restore e' p).reload.store
    have hfirst : (e'.restore p).2 = (e.restore p).2 := by
      unfold Engine.restore
      rw [h.store]
      split <;> rfl
    have halike : Alike (e.restore p).1 (e'.restore p).1 := by
      refine ⟨?_, ?_, fun q => ?_⟩
      · rw [hstore, hstore', h.store]
      · have hrules := (restored_restore e p).reload.rules
        have hrules' := (restored_restore e' p).reload.rules
        rw [hrules.locks, hrules'.locks, h.locks]
      · rw [draft_restore hc, draft_restore (h.store ▸ hc), h.draft]
    obtain ⟨hrest, halike⟩ := ih (by rw [hstore]; exact hc) halike
    refine ⟨?_, halike⟩
    change ((e'.restore p).2 <|> ((e'.restore p).1.restoreEach ps).2) =
      ((e.restore p).2 <|> ((e.restore p).1.restoreEach ps).2)
    rw [hfirst, hrest]

end Engine
end PageStore
