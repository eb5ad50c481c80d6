import PageStore.Proofs.Pool.FailedInsert
import PageStore.Proofs.Pool.LastUse

/-!
# The page that makes room

The order of use is that of the last uses, so the first page in it that may be
dropped is the one whose last use is the longest time ago among those that may.
These are the clean pages, but not the ones that the holder of a handle is writing
just then: a page latched for writing is passed over, clean or not.

Results:
* `evict_spec`, `install_full`: what an eviction takes, and what comes of a page that
  is to enter a full cache.
* `serve_full`: what comes of a request for such a page.
* `evicts_least_recently_used`: the same for whatever acts an engine has gone
  through since its cache was empty, and that dirty pages stay.
* `exists_clean_page_passed_over`: a clean page that is latched stays, though its
  last use is the oldest.
-/
namespace PageStore

variable {history : List PageId} {p q v : PageId}

namespace Pool

variable {c c' : Pool}

/-! ## Making room in a full cache -/

/-- The page is cached and clean. -/
def HasClean (c : Pool) (p : PageId) : Prop := ∃ f, c.cached[p]? = some f ∧ f.page.dirtier = none

/-- The page is cached and clean, and no holder of a handle has its frame latched for writing. -/
def Spare (c : Pool) (p : PageId) : Prop :=
  ∃ f, c.cached[p]? = some f ∧ f.page.dirtier = none ∧ ⟨p, f.number⟩ ∉ c.latched

theorem isEvictable_iff_spare : c.isEvictable p = true ↔ c.Spare p := by
  simp only [isEvictable_iff, isDirty_eq_false, Spare]

instance : Decidable (c.Spare p) := decidable_of_iff _ isEvictable_iff_spare

instance : Decidable (c.HasClean p) :=
  decidable_of_iff ((c.cached[p]?).any fun f => !f.page.isDirty) <| by
    simp only [Option.any_eq_true, Bool.not_eq_true', isDirty_eq_false, HasClean]

theorem Tidy.mem_of_spare (ht : c.Tidy) (h : c.Spare p) : p ∈ c.recency.order := by
  obtain ⟨f, hf, -⟩ := h
  exact (ht.order p).2 (Std.TreeMap.mem_iff_isSome_getElem?.2 (by rw [hf]; rfl))

/-- `p` has taken the place of `v`, the page whose last use is the longest time ago
among the pages accepted; nothing else has moved. -/
structure Supplants (accepts : PageId → Prop) (history : List PageId) (c c' : Pool) (v p : PageId) :
    Prop where
  accepted : accepts v
  oldest : ∀ q, accepts q → q ≠ v → Older history v q
  gone : v ∉ c'.cached
  entered : p ∈ c'.cached
  others : ∀ q, q ≠ v → q ≠ p → c'.cached[q]? = c.cached[q]?
  order : c'.recency.order = c.recency.order.filter (· != v) ++ [p]
  evictions : c'.counters.evictions = c.counters.evictions + 1

/-- Locks and other counters play no part in it. -/
theorem Supplants.aside {c0 : Pool} (h : Supplants c0.Spare history c0 c' v p)
    (hcached : c0.cached = c.cached) (hrec : c0.recency = c.recency)
    (hlatched : c0.latched = c.latched) (hcount : c0.counters.evictions = c.counters.evictions) :
    Supplants c.Spare history c c' v p := by
  have hspare : c0.Spare = c.Spare := by
    funext q
    rw [Spare, Spare, hcached, hlatched]
  exact ⟨hspare ▸ h.accepted, hspare ▸ h.oldest, h.gone, h.entered, hcached ▸ h.others,
    hrec ▸ h.order, hcount ▸ h.evictions⟩

/-- Once in, the page may change. -/
theorem Supplants.replace {accepts : PageId → Prop} (h : Supplants accepts history c c' v p)
    (hp : p ∉ c.recency.order) (f : Frame) (page : Page) (t : TxnId) :
    Supplants accepts history c (c'.replace p f page t) v p := by
  have hget := cached_put c' p ⟨f.number, page.withDirtier (some t)⟩
  have hvp : v ≠ p := fun hvp => h.gone (hvp ▸ h.entered)
  refine ⟨h.accepted, h.oldest, fun hv => h.gone ?_, ?_, fun q hqv hqp => ?_, ?_, h.evictions⟩
  · rw [Std.TreeMap.mem_iff_isSome_getElem?] at hv ⊢
    rwa [Pool.replace, hget, if_neg hvp] at hv
  · rw [Std.TreeMap.mem_iff_isSome_getElem?, Pool.replace, hget, if_pos rfl]
    rfl
  · rw [Pool.replace, hget, if_neg hqp, h.others q hqv hqp]
  · change (c'.recency.order.filter (· != p)) ++ [p] = _
    have hrest : ∀ q ∈ c.recency.order.filter (· != v), (q != p) = true := fun q hq =>
      bne_iff_ne.2 fun hqp => hp (hqp ▸ (List.mem_filter.1 hq).1)
    rw [h.order, List.filter_append, List.filter_eq_self.2 hrest]
    simp

/-- No page came in or went. -/
structure Crowded (c c' : Pool) : Prop where
  cached : c'.cached = c.cached
  recency : c'.recency = c.recency
  evictions : c'.counters.evictions = c.counters.evictions

/-- The first page in the order that may be dropped is the one used longest ago. -/
theorem evict_spec (ht : c.Tidy) (ha : Aged history c.recency) :
    (∃ v c', c.evict = .ok c' ∧ c.Spare v ∧ (∀ q, c.Spare q → q ≠ v → Older history v q) ∧
      c'.cached = c.cached.erase v ∧ c'.recency = c.recency.forget v ∧
      c'.counters = c.counters.addEviction) ∨
    c.evict = .error (.noEvictablePage c.cached.size) ∧ ∀ q, ¬c.Spare q := by
  unfold evict Recency.evict
  cases hfind : c.recency.order.find? c.isEvictable with
  | none =>
    refine .inr ⟨rfl, fun q hq => ?_⟩
    exact List.find?_eq_none.1 hfind q (ht.mem_of_spare hq) (isEvictable_iff_spare.2 hq)
  | some v =>
    obtain ⟨hv, before, after, horder, hbefore⟩ := List.find?_eq_some_iff_append.1 hfind
    refine .inl ⟨v, _, rfl, isEvictable_iff_spare.1 hv, fun q hq hne => ?_, rfl, rfl, rfl⟩
    -- the pages before `v` may not be dropped, and those after it were used later
    have hmem := ht.mem_of_spare hq
    rw [horder, List.mem_append, List.mem_cons] at hmem
    rcases hmem with hin | rfl | hin
    · have hno := hbefore q hin
      rw [isEvictable_iff_spare.2 hq] at hno
      cases hno
    · exact absurd rfl hne
    · have hlater := ha.pairwise
      rw [horder] at hlater
      exact List.rel_of_pairwise_cons (List.pairwise_append.1 hlater).2.1 hin

/-- A page that is not cached comes into a full cache for another, if one may be dropped. -/
theorem install_full (ht : c.Tidy) (ha : Aged history c.recency) (hp : p ∉ c.cached)
    (hfull : c.cached.size = c.capacity) (page : Page) :
    (∃ v c' f, c.install p page = .ok (c', f) ∧ Supplants c.Spare history c c' v p) ∨
    c.install p page = .error (.noEvictablePage c.capacity) ∧ ∀ q, ¬c.Spare q := by
  have hroom : c.room p = c.evict := by
    unfold room
    rw [if_neg]
    rw [isCached_iff, not_or]
    exact ⟨hp, by omega⟩
  have hpo : p ∉ c.recency.order := fun h => hp ((ht.order p).1 h)
  unfold install
  rw [hroom]
  rcases evict_spec ht ha with ⟨v, c1, he, hv, holdest, hcached, hrec, hcount⟩ | ⟨he, hno⟩
  · rw [he]
    have hvp : v ≠ p := by
      rintro rfl
      exact hpo (ht.mem_of_spare hv)
    have hget : ∀ q, (c1.put p ⟨c1.nextFrame, page⟩).cached[q]? =
        if q = p then some ⟨c1.nextFrame, page⟩ else if q = v then none else c.cached[q]? := by
      intro q
      rw [cached_put, hcached, getElem?_erase]
    refine .inl ⟨v, _, _, rfl, hv, holdest, ?_, ?_, ?_, ?_, ?_⟩
    · intro hmem
      have hsome := Std.TreeMap.mem_iff_isSome_getElem?.1 hmem
      rw [hget v, if_neg hvp, if_pos rfl] at hsome
      cases hsome
    · exact Std.TreeMap.mem_iff_isSome_getElem?.2 (by rw [hget p, if_pos rfl]; rfl)
    · intro q hqv hqp
      exact (hget q).trans (by rw [if_neg hqp, if_neg hqv])
    · change (c1.recency.touch p).order = _
      rw [hrec]
      have hfilter : (c.recency.order.filter (· != v)).filter (· != p) =
          c.recency.order.filter (· != v) := by
        refine List.filter_eq_self.2 fun q hq => ?_
        have hq := (List.mem_filter.1 hq).1
        exact bne_iff_ne.2 fun hqp => hpo (hqp ▸ hq)
      exact congrArg (· ++ [p]) hfilter
    · change c1.counters.evictions = _
      rw [hcount]
      rfl
  · rw [he, hfull]
    exact .inr ⟨rfl, hno⟩

end Pool

namespace Engine

open Pool

variable {e e' : Engine} {t : TxnId}

/-! ## A page that comes into a full cache -/

/-- The page that is wanted has to be brought in if it is not cached: it can be read,
or it is made and is to enter the cache. -/
def BringsIn (s : Store) (p : PageId) : Purpose → Prop
  | .hold => False
  | .fetch | .place _ _ | .remove _ => (s.readPage p).isOk = true
  | .append job => job.installs = true ∧ job.file.pageCount s.volume = .ok p.index ∧
    (job.file.appendPage s.volume p.index job.tuple).isOk = true

theorem exists_of_isOk {ε α : Type} {x : Except ε α} (h : x.isOk = true) : ∃ a, x = .ok a := by
  cases x with
  | error => cases h
  | ok a => exact ⟨a, rfl⟩

section
variable (ht : e.pool.Tidy) (ha : Aged history e.pool.recency) (hp : p ∉ e.pool.cached)
  (hfull : e.pool.cached.size = e.pool.capacity)

include ht ha hp hfull

theorem load_full {page : Page} (hread : e.store.readPage p = .ok page) :
    (∃ v e' f, e.load p = (e', .ok f) ∧ Supplants e.pool.Spare history e.pool e'.pool v p) ∨
    ∃ e', e.load p = (e', .error (.noEvictablePage e.pool.capacity)) ∧ Crowded e.pool e'.pool ∧
      ∀ q, ¬e.pool.Spare q := by
  have hmiss : e.pool.hit p = none := by
    rw [hit, Option.map_eq_none_iff]
    exact Std.TreeMap.getElem?_eq_none hp
  have ht' : { e.pool with counters := e.pool.counters.addMiss.addRead }.Tidy := ⟨ht.size, ht.order⟩
  unfold load
  rw [hmiss, hread]
  dsimp only
  rcases install_full ht' ha hp hfull page with ⟨v, c', f, hi, hs⟩ | ⟨hi, hno⟩
  · rw [hi]
    exact .inl ⟨v, _, f, rfl, hs.aside rfl rfl rfl rfl⟩
  · rw [hi]
    exact .inr ⟨_, rfl, ⟨rfl, rfl, rfl⟩, hno⟩

theorem serve_full {purpose : Purpose} (hb : BringsIn e.store p purpose) :
    (∃ v, Supplants e.pool.Spare history e.pool (e.serve t p purpose).1.pool v p) ∨
    (e.serve t p purpose).2 = .done (.error (.noEvictablePage e.pool.capacity)) ∧
      Crowded e.pool (e.serve t p purpose).1.pool ∧ ∀ q, ¬e.pool.Spare q := by
  have hfetched : purpose.fetches = true → (e.store.readPage p).isOk = true →
      (∃ v, Supplants e.pool.Spare history e.pool (e.serve t p purpose).1.pool v p) ∨
      (e.serve t p purpose).2 = .done (.error (.noEvictablePage e.pool.capacity)) ∧
        Crowded e.pool (e.serve t p purpose).1.pool ∧ ∀ q, ¬e.pool.Spare q := by
    intro hf hok
    obtain ⟨page, hread⟩ := exists_of_isOk hok
    rcases load_full ht ha hp hfull hread with ⟨v, e', f, hl, hs⟩ | ⟨e', hl, hc, hno⟩
    · rcases serve_of_load (t := t) hf hl with ⟨he, -⟩ | ⟨new, he, -⟩
      · exact .inl ⟨v, he ▸ hs⟩
      · rw [he]
        exact .inl ⟨v, hs.replace (fun h => hp ((ht.order p).1 h)) ..⟩
    · rw [serve_of_load_error hf hl]
      exact .inr ⟨rfl, hc, hno⟩
  cases purpose with
  | hold => exact hb.elim
  | fetch => exact hfetched rfl hb
  | place job limit => exact hfetched rfl hb
  | remove record => exact hfetched rfl hb
  | append job =>
    obtain ⟨hin, hcount, hok⟩ := hb
    obtain ⟨⟨v, page⟩, hmade⟩ := exists_of_isOk hok
    have henter : e.serve t p (.append job) =
        enter { e with store := { e.store with volume := v } } p (page.withDirtier (some t)) true := by
      rw [serve, serveAppend, hcount, hmade, hin]
      exact if_neg (not_not_intro rfl)
    rw [henter, enter, if_pos rfl]
    rcases install_full ht ha hp hfull (page.withDirtier (some t)) with ⟨v, c', f, hi, hs⟩ | ⟨hi, hno⟩
    · rw [hi]
      exact .inl ⟨v, hs⟩
    · rw [hi]
      exact .inr ⟨rfl, ⟨rfl, rfl, rfl⟩, hno⟩

end

/-! ## The victim, and what stays -/

/-- Whatever acts `start` has gone through: when a lock is granted for a page that is
not cached and has to be brought into a full cache, it takes the place of the accepted
page whose last use is the oldest; if none is accepted, the request fails. -/
def MakesRoom (accepts : Pool → PageId → Prop) (start : Engine) : Prop :=
  ∀ (acts : List Act) (ticket : Ticket) (r : LockRequest Purpose) (which : Turn),
    let e := start.actEach acts
    let turn := e.turn ticket r which
    (e.pool.locks.request ticket r which).2 = .granted → BringsIn e.store r.page r.purpose →
    r.page ∉ e.pool.cached → e.pool.cached.size = start.pool.capacity →
    ((∃ q, accepts e.pool q) →
      ∃ v, Supplants (accepts e.pool) (start.usesEach acts) e.pool turn.1.pool v r.page) ∧
    ((∀ q, ¬accepts e.pool q) →
      turn.2 = .done (.error (.noEvictablePage start.pool.capacity)) ∧ Crowded e.pool turn.1.pool)

theorem makesRoom_of_inStep {start : Engine} (hs : start.pool.InStep start.pool.capacity)
    (ha : Aged [] start.pool.recency) : MakesRoom Pool.Spare start := by
  intro acts ticket r which e turn hgranted hb hp hfull
  have hstep : e.pool.InStep start.pool.capacity := inStep_actEach acts hs
  have haged : Aged (start.usesEach acts) e.pool.recency := by
    simpa using aged_actEach acts ha
  rw [← hstep.capacity] at hfull ⊢
  rcases hq : e.pool.locks.request ticket r which with ⟨locks, verdict⟩
  rw [hq] at hgranted
  obtain rfl : verdict = .granted := hgranted
  have hturn : turn = (((e.withLocks locks).serve r.txn r.page r.purpose).1,
      progressOf r.txn ((e.withLocks locks).serve r.txn r.page r.purpose).2) := by
    simp only [turn, Engine.turn, hq]
  rw [hturn]
  rcases serve_full (e := e.withLocks locks) (t := r.txn) ⟨hstep.tidy.size, hstep.tidy.order⟩ haged
    hp hfull hb with ⟨v, hs⟩ | ⟨hx, hc, hno⟩
  · have hs := hs.aside (c := e.pool) rfl rfl rfl rfl
    exact ⟨fun _ => ⟨v, hs⟩, fun hno => absurd hs.accepted (hno v)⟩
  · refine ⟨fun hsome => absurd hsome (not_exists.2 hno), fun _ =>
      ⟨?_, hc.cached, hc.recency, hc.evictions⟩⟩
    rw [hx]
    rfl

theorem mem_of_page? {c : Pool} {page : Page} (h : c.page? q = some page) : q ∈ c.cached := by
  obtain ⟨f, hf, -⟩ := page?_eq_some.1 h
  exact Std.TreeMap.mem_iff_isSome_getElem?.2 (by rw [hf]; rfl)

theorem dirty_stays_serve (ht : e.pool.Tidy) (purpose : Purpose) {page : Page}
    (hq : e.pool.page? q = some page) (hd : page.dirtier ≠ none) :
    q ∈ (e.serve t p purpose).1.pool.cached := by
  have hfetched : purpose.fetches = true → q ∈ (e.serve t p purpose).1.pool.cached := by
    intro hf
    rcases hl : e.load p with ⟨e', x | f⟩
    · rw [serve_of_load_error hf hl]
      exact mem_of_page? ((load_turnover hl).dirty hq hd)
    · have hmem := mem_of_page? ((load_turnover hl).dirty hq hd)
      rcases serve_of_load (t := t) hf hl with ⟨he, -⟩ | ⟨new, he, -⟩
      · exact he ▸ hmem
      · rw [he]
        exact Std.TreeMap.mem_insert.2 (.inr hmem)
  cases purpose with
  | hold => exact mem_of_page? hq
  | fetch => exact hfetched rfl
  | place job limit => exact hfetched rfl
  | remove record => exact hfetched rfl
  | append job =>
    change q ∈ (e.serveAppend t p job).1.pool.cached
    rcases serveAppend_cases (t := t) (p := p) ht job with ⟨hpool, -⟩ | ⟨volume, filled, r, -, -, hn⟩
    · rw [hpool]
      exact mem_of_page? hq
    · by_cases hqp : q = p
      · rw [hqp]
        exact mem_of_page? hn.cached
      · rcases hn.other q hqp with hold | ⟨hclean, -⟩
        · exact mem_of_page? (hold.trans hq)
        · exact absurd (hclean page hq) hd

/-- A dirty page stays cached whatever a request does. -/
theorem dirty_stays (ht : e.pool.Tidy) (ticket : Ticket) (r : LockRequest Purpose) (which : Turn)
    {q : PageId} {page : Page} (hq : e.pool.page? q = some page) (hd : page.dirtier ≠ none) :
    q ∈ (e.turn ticket r which).1.pool.cached := by
  rcases turn_cases e ticket r which with ⟨-, he⟩ | ⟨-, he⟩ | ⟨-, he⟩
  · rw [he]
    exact dirty_stays_serve (e := e.withLocks (e.pool.locks.request ticket r which).1)
      ⟨ht.size, ht.order⟩ r.purpose hq hd
  · rw [he]
    exact mem_of_page? hq
  · rw [he]
    exact mem_of_page? hq

/-- In every engine that begins with an empty cache, whatever acts it has gone through,
a page that has to be brought into a full cache takes the place of the clean and
unlatched page whose last use is the oldest; if every page is dirty or latched, the
request fails and the cache stays as it is. And no request takes a dirty page out of
the cache. -/
theorem evicts_least_recently_used {capacity : Nat} {policy : DeadlockPolicy} {pool : Pool}
    (h : Pool.new capacity policy = .ok pool) (store : Store) :
    MakesRoom Pool.Spare ⟨store, pool⟩ ∧
    ∀ (acts : List Act) (ticket : Ticket) (r : LockRequest Purpose) (which : Turn) (q : PageId)
      (page : Page), let e := actEach ⟨store, pool⟩ acts
      e.pool.page? q = some page → page.dirtier ≠ none →
        q ∈ (e.turn ticket r which).1.pool.cached := by
  have hstep := inStep_new h
  have hempty : Aged [] pool.recency := by
    unfold Pool.new at h
    split at h
    · cases h
    · cases h
      exact List.Sublist.refl _
  refine ⟨makesRoom_of_inStep (hstep.capacity.symm ▸ hstep) hempty, ?_⟩
  intro acts ticket r which q page e hq hd
  exact dirty_stays (inStep_actEach acts hstep).tidy ticket r which hq hd

/-- A row is deleted from page 0; then pages 1 and 2 are fetched, and page 1 once more. -/
def readings : List Act :=
  let fetch := fun index => Act.turn 1 ⟨1, ⟨.numbered 1, index⟩, .shared, .fetch⟩ .first
  [.turn 1 ⟨1, ⟨.numbered 1, 0⟩, .exclusive, .remove ⟨⟨.numbered 1, 0⟩, 0⟩⟩ .first, fetch 1, fetch 2,
    fetch 1]

def roomyPool : Pool := { World.samplePool with capacity := 3 }

def readEngine : Engine := actEach ⟨sharedStore, roomyPool⟩ readings

/-- With room for three pages, an append then takes the place of page 2. Page 0, used
before it, is dirty. -/
theorem evicts_least_recently_used_readings :
    let r := slimRequest (slimFile 1 .extendEmpty) 1 6 3 none
    let after := (readEngine.turn 1 r .first).1.pool
    Pool.new 3 .cycleDetection = .ok roomyPool ∧
      (readEngine.pool.locks.request 1 r .first).2 = .granted ∧
      BringsIn readEngine.store r.page r.purpose ∧ r.page ∉ readEngine.pool.cached ∧
      readEngine.pool.cached.size = 3 ∧
      (∃ v, Supplants readEngine.pool.Spare (usesEach ⟨sharedStore, roomyPool⟩ readings)
        readEngine.pool after v r.page) ∧
      ⟨.numbered 1, 2⟩ ∉ after.cached ∧ ⟨.numbered 1, 0⟩ ∈ after.cached := by
  intro r after
  have hnew : Pool.new 3 .cycleDetection = .ok roomyPool := rfl
  have hgranted : (readEngine.pool.locks.request 1 r .first).2 = .granted := by decide +kernel
  have hbrings : BringsIn readEngine.store r.page r.purpose :=
    ⟨rfl, by decide +kernel, by decide +kernel⟩
  have hout : r.page ∉ readEngine.pool.cached := by decide +kernel
  have hfull : readEngine.pool.cached.size = 3 := by decide +kernel
  have hspare : readEngine.pool.Spare ⟨.numbered 1, 2⟩ := by decide +kernel
  have hdirty : (readEngine.pool.page? ⟨.numbered 1, 0⟩).any (·.dirtier.isSome) = true := by
    decide +kernel
  obtain ⟨page, hpage, hd⟩ := (Option.any_eq_true ..).1 hdirty
  obtain ⟨hroom, hstays⟩ := evicts_least_recently_used hnew sharedStore
  have hvictim := (hroom readings 1 r .first hgranted hbrings hout hfull).1 ⟨_, hspare⟩
  exact ⟨hnew, hgranted, hbrings, hout, hfull, hvictim, by decide +kernel,
    hstays readings 1 r .first _ page hpage (Option.isSome_iff_ne_none.1 hd)⟩

/-- Pages 0 and 1 are fetched, and somebody begins to write page 0 through its handle. -/
def pinning : List Act :=
  let fetch := fun index => Act.turn 1 ⟨1, ⟨.numbered 1, index⟩, .shared, .fetch⟩ .first
  [fetch 0, fetch 1, .aside ⟨0, 2, 0, 2, 0, 0, 0⟩ [⟨⟨.numbered 1, 0⟩, 0⟩]]

def pinnedEngine : Engine := actEach ⟨sharedStore, World.samplePool⟩ pinning

/-- A clean page that the holder of a handle is writing is passed over, though its last
use is the oldest: page 1 makes room for page 2. -/
theorem exists_clean_page_passed_over :
    ∃ start : Engine, Pool.new 2 .cycleDetection = .ok start.pool ∧ ¬MakesRoom Pool.HasClean start := by
  refine ⟨⟨sharedStore, World.samplePool⟩, rfl, fun h => ?_⟩
  let r : LockRequest Purpose := ⟨1, ⟨.numbered 1, 2⟩, .shared, .fetch⟩
  have hgranted : (pinnedEngine.pool.locks.request 1 r .first).2 = .granted := by decide +kernel
  have hbrings : BringsIn pinnedEngine.store r.page r.purpose := by
    show (pinnedEngine.store.readPage r.page).isOk = true
    decide +kernel
  have hout : r.page ∉ pinnedEngine.pool.cached := by decide +kernel
  have hfull : pinnedEngine.pool.cached.size = 2 := by decide +kernel
  have hclean : pinnedEngine.pool.HasClean ⟨.numbered 1, 0⟩ := by decide +kernel
  have hstays : ⟨.numbered 1, 0⟩ ∈ (pinnedEngine.turn 1 r .first).1.pool.cached := by decide +kernel
  have huses : usesEach ⟨sharedStore, World.samplePool⟩ pinning =
      [⟨.numbered 1, 0⟩, ⟨.numbered 1, 1⟩] := by decide +kernel
  obtain ⟨v, hs⟩ := (h pinning 1 r .first hgranted hbrings hout hfull).1 ⟨_, hclean⟩
  have hne : (⟨.numbered 1, 0⟩ : PageId) ≠ v := fun hv => hs.gone (hv ▸ hstays)
  -- page 0 was not used again after a later use of another page
  obtain ⟨after, hsuffix, -, hafter⟩ := huses ▸ hs.oldest _ hclean hne
  rcases List.suffix_cons_iff.1 hsuffix with heq | hrest
  · exact hne (List.cons.inj heq).1.symm
  · rcases List.suffix_cons_iff.1 hrest with heq | hrest
    · rw [(List.cons.inj heq).2] at hafter
      cases hafter
    · exact absurd hrest (by simp)

end Engine
end PageStore
