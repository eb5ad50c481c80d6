import PageStore.Proofs.Interleaving.World
import PageStore.Proofs.Pool.Reached

/-!
# The cache and the order of use

The pages of the cache and the order in which they were used are kept apart,
and every act that changes the one has to change the other. They are `InStep`
if the order lists every cached page once and nothing else, and the cache keeps
to its capacity. Since every eviction then takes a page out of the cache, making
room takes one eviction at most.

Nothing is asked of the acts here, nor of the storage below.

Results:
* `InStep.evict`, `InStep.put`, `InStep.drop`: what brings pages in and out
  keeps both in step.
* `inStep_act`, `inStep_actEach`: so does every act, and every list of acts.
* `exists_acts_perform`, `exists_acts_commit`: whole operations are lists of acts.
* `evictUntilRoom_eq`: evicting until there is room is the same as evicting once.
* `cache_and_order_in_step`: all this for the engines that begin with an empty cache.
-/
namespace PageStore

namespace Pool

/-- The cache keeps to its capacity `n`, and the order of use lists each cached
page once and no other. -/
structure InStep (n : Nat) (c : Pool) : Prop where
  capacity : c.capacity = n
  tidy : c.Tidy
  nodup : c.recency.order.Nodup

variable {n : Nat} {c c' : Pool} {p : PageId}

theorem inStep_new {policy : DeadlockPolicy} (h : new n policy = .ok c) : c.InStep n := by
  have htidy := tidy_new h
  unfold new at h
  split at h
  · cases h
  · cases h
    exact ⟨rfl, htidy, List.nodup_nil⟩

/-- Nothing but the cache, its capacity and the order of use plays a part. -/
theorem InStep.aside (h : c.InStep n) (hcap : c'.capacity = c.capacity) (hcached : c'.cached = c.cached)
    (hrec : c'.recency = c.recency) : c'.InStep n := by
  refine ⟨hcap.trans h.capacity, ⟨?_, fun p => ?_⟩, hrec ▸ h.nodup⟩
  · rw [hcached, hcap]
    exact h.tidy.size
  · rw [hcached, hrec]
    exact h.tidy.order p

theorem InStep.evict (h : c.InStep n) (he : c.evict = .ok c') : c'.InStep n := by
  obtain ⟨hrules, p, -, -, -, -, hrec⟩ := evict_eq_ok he
  refine ⟨hrules.capacity.trans h.capacity, (h.tidy.evict he).1, ?_⟩
  rw [hrec]
  exact Recency.nodup_forget p h.nodup

theorem InStep.room (h : c.InStep n) (hr : c.room p = .ok c') : c'.InStep n := by
  rcases room_cases hr with ⟨rfl, -⟩ | ⟨-, he⟩
  · exact h
  · exact h.evict he

theorem InStep.put (h : c.InStep n) (f : Frame) (hroom : p ∈ c.cached ∨ c.cached.size < c.capacity) :
    (c.put p f).InStep n :=
  ⟨h.capacity, h.tidy.put hroom, Recency.nodup_touch p h.nodup⟩

theorem InStep.replace (h : c.InStep n) {f : Frame} (hf : c.cached[p]? = some f) (page : Page)
    (t : TxnId) : (c.replace p f page t).InStep n :=
  h.put _ (.inl (Std.TreeMap.mem_iff_isSome_getElem?.2 (by rw [hf]; rfl)))

theorem InStep.install (h : c.InStep n) {page : Page} {f : Frame} (hi : c.install p page = .ok (c', f)) :
    c'.InStep n := by
  unfold Pool.install at hi
  split at hi
  · cases hi
  · next c1 hr =>
    obtain ⟨rfl, rfl⟩ := Prod.mk.inj (Except.ok.inj hi)
    exact ((h.room hr).put ⟨c1.nextFrame, page⟩ (h.tidy.room hr).2).aside rfl rfl rfl

theorem InStep.hit (h : c.InStep n) {f : Frame} (hh : c.hit p = some (c', f)) : c'.InStep n := by
  obtain ⟨f', hf, he⟩ := Option.map_eq_some_iff.1 hh
  obtain ⟨rfl, rfl⟩ := Prod.mk.inj he
  have hmem : p ∈ c.cached := Std.TreeMap.mem_iff_isSome_getElem?.2 (by rw [hf]; rfl)
  refine ⟨h.capacity, ⟨h.tidy.size, fun q => ?_⟩, Recency.nodup_touch p h.nodup⟩
  change q ∈ (c.recency.touch p).order ↔ q ∈ c.cached
  rw [Recency.mem_touch, h.tidy.order]
  exact ⟨fun hq => hq.elim id fun he => he ▸ hmem, .inl⟩

theorem InStep.drop (h : c.InStep n) (p : PageId) : (c.drop p).InStep n :=
  ⟨h.capacity, Engine.tidy_drop h.tidy p, Recency.nodup_forget p h.nodup⟩

/-- A page may change in its frame. -/
theorem InStep.reframe (h : c.InStep n) {f : Frame} (hf : c.cached[p]? = some f) (f' : Frame) :
    InStep n { c with cached := c.cached.insert p f' } :=
  ⟨h.capacity, h.tidy.reframe hf f', h.nodup⟩

theorem InStep.edit (h : c.InStep n) (handle : Handle) (call : Page.Call) :
    (c.edit handle call).InStep n := by
  unfold Pool.edit
  split
  · next f hf =>
    split
    · exact h.reframe hf _
    · exact h.aside rfl rfl rfl
  · exact h.aside rfl rfl rfl

/-! ## How often room is made -/

theorem size_evict_lt (h : c.evict = .ok c') : c'.cached.size < c.cached.size := by
  obtain ⟨-, p, f, hf, -, hcached, -⟩ := evict_eq_ok h
  rw [hcached]
  exact size_erase_lt (Std.TreeMap.mem_iff_isSome_getElem?.2 (by rw [hf]; rfl))

/-- Evicts until there is room for a page, if it needs any. -/
def evictUntilRoom (c : Pool) (p : PageId) : Except Error Pool :=
  if c.isCached p ∨ c.cached.size < c.capacity then .ok c
  else
    match _evicted : c.evict with
    | .error x => .error x
    | .ok c' => c'.evictUntilRoom p
termination_by c.cached.size
decreasing_by exact size_evict_lt _evicted

/-- One eviction makes room. -/
theorem evictUntilRoom_eq (h : c.InStep n) (p : PageId) : c.evictUntilRoom p = c.room p := by
  unfold evictUntilRoom room
  split
  · rfl
  · split
    · next x hx => rw [hx]
    · next c1 he =>
      have hroom := (h.tidy.evict he).2
      rw [he, evictUntilRoom, if_pos (.inr hroom)]

end Pool

namespace Engine

open Pool

variable {n : Nat} {e e' : Engine} {p : PageId} {t : TxnId}

/-! ## Turns -/

theorem inStep_load (h : e.pool.InStep n) (p : PageId) : (e.load p).1.pool.InStep n := by
  unfold load
  split
  · next pool f hh => exact h.hit hh
  · dsimp only
    split
    · exact h.aside rfl rfl rfl
    · split
      · exact h.aside rfl rfl rfl
      · next hi =>
        have hread : InStep n { e.pool with counters := e.pool.counters.addMiss.addRead } :=
          h.aside rfl rfl rfl
        exact hread.install hi

theorem inStep_serveFetch (h : e.pool.InStep n) : (e.serveFetch p).1.pool.InStep n := by
  have hl := inStep_load h p
  unfold serveFetch
  split <;> next hload => rwa [hload] at hl

theorem inStep_servePlace (h : e.pool.InStep n) {job : Placement} {limit : Nat} :
    (e.servePlace t p job limit).1.pool.InStep n := by
  have hl := inStep_load h p
  unfold servePlace
  split
  · next hload => rwa [hload] at hl
  · next e1 f hload =>
    rw [hload] at hl
    split
    · exact hl
    · split
      · exact hl
      · exact hl.replace (load_eq_ok hload).1 _ t

theorem inStep_serveRemove (h : e.pool.InStep n) {record : RecordId} :
    (e.serveRemove t p record).1.pool.InStep n := by
  have hl := inStep_load h p
  unfold serveRemove
  split
  · next hload => rwa [hload] at hl
  · next e1 f hload =>
    rw [hload] at hl
    split
    · exact hl
    · exact hl.replace (load_eq_ok hload).1 _ t

theorem inStep_enter (h : e.pool.InStep n) {page : Page} {installs : Bool} :
    (e.enter p page installs).1.pool.InStep n := by
  unfold enter
  split
  · split
    · exact h
    · next hi => exact h.install hi
  · exact h

theorem inStep_serveAppend (h : e.pool.InStep n) {job : Placement} :
    (e.serveAppend t p job).1.pool.InStep n := by
  unfold serveAppend
  split
  · exact h
  · split
    · exact h
    · split
      · exact h
      · refine inStep_enter ?_
        exact h

theorem inStep_serve (h : e.pool.InStep n) (purpose : Purpose) :
    (e.serve t p purpose).1.pool.InStep n := by
  cases purpose with
  | hold => exact h
  | fetch => exact inStep_serveFetch h
  | place job limit => exact inStep_servePlace h
  | append job => exact inStep_serveAppend h
  | remove record => exact inStep_serveRemove h

theorem inStep_withLocks (h : e.pool.InStep n) (locks : LockTable Purpose) :
    (e.withLocks locks).pool.InStep n := h.aside rfl rfl rfl

theorem inStep_turn (h : e.pool.InStep n) (ticket : Ticket) (r : LockRequest Purpose) (which : Turn) :
    (e.turn ticket r which).1.pool.InStep n := by
  rcases turn_cases e ticket r which with ⟨-, he⟩ | ⟨-, he⟩ | ⟨-, he⟩
  · rw [he]
    exact inStep_serve (inStep_withLocks h _) r.purpose
  · rw [he]
    exact inStep_withLocks h _
  · rw [he]
    exact h.aside rfl rfl rfl

/-! ## Flushes and restores -/

theorem inStep_flush (h : e.pool.InStep n) (hf : e.flush p = .ok e') : e'.pool.InStep n := by
  rcases flush_eq_ok hf with ⟨rfl, -⟩ | ⟨f, s, hc, -, -, rfl⟩
  · exact h
  · exact (h.reframe hc _).aside rfl rfl rfl

theorem inStep_flushEach : ∀ (ps : List PageId) {e : Engine}, e.pool.InStep n →
    (e.flushEach ps).1.pool.InStep n
  | [], _, h => h
  | p :: ps, e, h => by
    rw [flushEach]
    split
    · exact h
    · next hf => exact inStep_flushEach ps (inStep_flush h hf)

theorem inStep_discard (h : e.pool.InStep n) (p : PageId) : (e.discard p).1.pool.InStep n := by
  unfold discard
  split
  · exact h
  · next hf => exact (inStep_flush h hf).drop p

theorem inStep_restore (h : e.pool.InStep n) (p : PageId) : (e.restore p).1.pool.InStep n := by
  refine ⟨?_, tidy_restore h.tidy p, ?_⟩
  · exact (restored_restore e p).reload.rules.capacity.trans h.capacity
  · unfold restore
    split
    · exact Recency.nodup_forget p h.nodup
    · exact h.nodup

theorem inStep_restoreEach : ∀ (ps : List PageId) {e : Engine}, e.pool.InStep n →
    (e.restoreEach ps).1.pool.InStep n
  | [], _, h => h
  | p :: ps, _, h => inStep_restoreEach ps (inStep_restore h p)

theorem inStep_keepChanges (h : e.pool.InStep n) (t : TxnId) :
    (e.keepChanges t).engine.pool.InStep n := by
  have hflush := inStep_flushEach (e.pool.dirtyPages (· == t)) h
  unfold keepChanges flushTxn
  split
  · next hx => rwa [hx] at hflush
  · next hok =>
    rw [hok] at hflush
    exact inStep_withLocks hflush _

theorem inStep_dropChanges (h : e.pool.InStep n) (t : TxnId) :
    (e.dropChanges t).engine.pool.InStep n :=
  inStep_withLocks (inStep_restoreEach (e.pool.dirtyPages (· == t)) h) _

/-! ## Acts -/

/-- Every act keeps the cache and the order of use in step. -/
theorem inStep_act (h : e.pool.InStep n) (a : Act) : (e.act a).pool.InStep n := by
  cases a with
  | turn ticket r which => exact inStep_turn h ticket r which
  | keep t => exact inStep_keepChanges h t
  | drop t => exact inStep_dropChanges h t
  | release t p => exact inStep_withLocks h _
  | flush ps => exact inStep_flushEach ps h
  | discard p => exact inStep_discard h p
  | edit handle call => exact h.edit handle call
  | aside counters latched => exact h.aside rfl rfl rfl
  | storage s => exact h

/-- The engine after one act after another. -/
def actEach (e : Engine) (acts : List Act) : Engine := acts.foldl act e

theorem inStep_actEach : ∀ (acts : List Act) {e : Engine}, e.pool.InStep n →
    (e.actEach acts).pool.InStep n
  | [], _, h => h
  | a :: acts, _, h => inStep_actEach acts (inStep_act h a)

theorem actEach_append (e : Engine) (acts more : List Act) :
    e.actEach (acts ++ more) = (e.actEach acts).actEach more := List.foldl_append

/-! ## Whole operations are lists of acts -/

theorem exists_acts_turnAlone (e : Engine) (ticket : Ticket) (r : LockRequest Purpose) (which : Turn) :
    ∃ acts, (e.turnAlone ticket r which).1 = e.actEach acts := by
  unfold turnAlone
  split
  · next e1 h1 =>
    have hfirst : e1 = e.actEach [.turn ticket r which] := by
      rw [actEach, List.foldl_cons, List.foldl_nil, act, h1]
    split
    · refine ⟨[.turn ticket r which, .turn ticket r .last], ?_⟩
      rw [show [Act.turn ticket r which, .turn ticket r .last] =
        [.turn ticket r which] ++ [.turn ticket r .last] from rfl, actEach_append, ← hfirst]
      rfl
    · exact ⟨_, hfirst⟩
  · exact ⟨[.turn ticket r which], rfl⟩

theorem exists_acts_settle (e : Engine) (ticket : Ticket) (r : LockRequest Purpose) (which : Turn) :
    ∃ acts, (e.settle ticket r which).1 = e.actEach acts := by
  fun_induction settle e ticket r which with
  | case1 e r which e' result h =>
    obtain ⟨acts, hacts⟩ := exists_acts_turnAlone e ticket r which
    exact ⟨acts, by rw [← hacts, h]⟩
  | case2 e r which e' h =>
    obtain ⟨acts, hacts⟩ := exists_acts_turnAlone e ticket r which
    exact ⟨acts, by rw [← hacts, h]⟩
  | case3 e r which e' r' h ih =>
    obtain ⟨acts, hacts⟩ := exists_acts_turnAlone e ticket r which
    obtain ⟨more, hmore⟩ := ih
    rw [h] at hacts
    exact ⟨acts ++ more, by rw [hmore, actEach_append, ← hacts]⟩

/-- An operation is a list of acts, however it comes to rest. -/
theorem exists_acts_perform (e : Engine) (ticket : Ticket) (t : TxnId) (op : Operation) :
    ∃ acts, (e.perform ticket t op).1 = e.actEach acts := by
  unfold perform
  split
  · exact ⟨[], rfl⟩
  · exact ⟨[], rfl⟩
  · exact exists_acts_settle e ticket _ .first

/-- So is a commit, whether or not it succeeds. -/
theorem exists_acts_commit (e : Engine) (t : TxnId) :
    ∃ acts, (e.commit t).engine = e.actEach acts := by
  unfold commit
  dsimp only
  split
  · exact ⟨[.keep t], by simp only [actEach, List.foldl_cons, List.foldl_nil, act]⟩
  · exact ⟨[.keep t, .drop t], by simp only [actEach, List.foldl_cons, List.foldl_nil, act]⟩

/-- Whatever acts an engine with an empty cache goes through, failures and all,
the cache keeps to its capacity, the order of use lists each cached page once
and nothing else, and evicting until there is room is evicting once. -/
theorem cache_and_order_in_step {capacity : Nat} {policy : DeadlockPolicy} {pool : Pool}
    (h : Pool.new capacity policy = .ok pool) (store : Store) (acts : List Act) :
    let c := (actEach ⟨store, pool⟩ acts).pool
    c.cached.size ≤ capacity ∧ c.recency.order.Nodup ∧
      (∀ p, p ∈ c.recency.order ↔ p ∈ c.cached) ∧ ∀ p, c.evictUntilRoom p = c.room p := by
  intro c
  have hc : c.InStep capacity := inStep_actEach acts (inStep_new h)
  exact ⟨hc.capacity ▸ hc.tidy.size, hc.nodup, hc.tidy.order, evictUntilRoom_eq hc⟩

/-- The append of a row to the sample table. -/
def appendAct (t : TxnId) (index : Nat) : Act :=
  .turn t ⟨t, World.samplePage index, .exclusive, .append ⟨World.sampleFile, World.sampleRow 5, true⟩⟩
    .first

/-- In a pool of one page, a second append finds no room and fails, and the
abort of the first cannot read its page again; what is cached afterwards is the
page of the third. -/
theorem cache_and_order_in_step_onePage :
    let pool := { World.samplePool with capacity := 1 }
    let acts := [appendAct 1 0, appendAct 2 1, .storage .empty, .drop 1, .storage World.sampleStore,
      appendAct 3 0]
    let c := (actEach ⟨World.sampleStore, pool⟩ acts).pool
    Pool.new 1 .cycleDetection = .ok pool ∧ c.recency.order = [World.samplePage 0] ∧
      c.cached.size ≤ 1 ∧ c.recency.order.Nodup ∧
      (∀ p, p ∈ c.recency.order ↔ p ∈ c.cached) ∧ ∀ p, c.evictUntilRoom p = c.room p :=
  ⟨rfl, by decide +kernel, cache_and_order_in_step rfl World.sampleStore _⟩

end Engine
end PageStore
