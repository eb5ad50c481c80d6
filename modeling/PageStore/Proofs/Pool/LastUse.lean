import Mathlib.Data.List.Dedup
import PageStore.Proofs.Pool.InStep

/-!
# The order of use follows the uses

A page is used when it is fetched, and when it is put into the cache after a row
was put on it or deleted from it. The pages used so far, oldest use first, are the
history of an engine. Nothing else moves a page in the order of use: pages become
clean, dirty or latched where they stand, and those that are flushed, restored,
dropped or evicted stay there or leave it. So the order is that of the last uses in
the history, less the pages that are not cached any more.

Results:
* `pairwise_older_dedup`: a history with only the last use of each page left in it.
* `aged_serve`, `aged_act`, `aged_actEach`: the order follows the history, for a
  granted request, an act, and a list of acts.
* `serve_of_load`: what a request does with the page that it fetched.
-/
namespace PageStore

/-! ## Last uses -/

/-- In a history, oldest use first, `q` was used after the last use of `p`. -/
def Older (history : List PageId) (p q : PageId) : Prop :=
  ∃ after, (p :: after) <:+ history ∧ p ∉ after ∧ q ∈ after

variable {history : List PageId} {p q v : PageId}

theorem Older.cons (h : Older history p q) (a : PageId) : Older (a :: history) p q := by
  obtain ⟨after, hsuffix, hp, hq⟩ := h
  exact ⟨after, hsuffix.trans (List.suffix_cons a history), hp, hq⟩

/-- With only its last use left of each page, a history is in the order of last uses. -/
theorem pairwise_older_dedup (history : List PageId) : history.dedup.Pairwise (Older history) := by
  induction history with
  | nil => exact List.Pairwise.nil
  | cons a history ih =>
    have hrest : history.dedup.Pairwise (Older (a :: history)) := ih.imp fun h => h.cons a
    by_cases ha : a ∈ history
    · rwa [List.dedup_cons_of_mem ha]
    · rw [List.dedup_cons_of_notMem ha]
      refine List.pairwise_cons.2 ⟨fun q hq => ?_, hrest⟩
      exact ⟨history, List.suffix_refl _, ha, List.mem_dedup.1 hq⟩

theorem dedup_concat (history : List PageId) (p : PageId) :
    (history ++ [p]).dedup = history.dedup.filter (· != p) ++ [p] := by
  induction history with
  | nil => simp
  | cons a history ih =>
    rw [List.cons_append]
    by_cases ha : a ∈ history
    · rw [List.dedup_cons_of_mem (List.mem_append_left _ ha), List.dedup_cons_of_mem ha, ih]
    · by_cases hap : a = p
      · subst hap
        rw [List.dedup_cons_of_mem (by simp), List.dedup_cons_of_notMem ha, ih]
        simp
      · rw [List.dedup_cons_of_notMem (by simp [ha, hap]), List.dedup_cons_of_notMem ha, ih]
        simp [hap]

/-- The order of use is that of the last uses in the history. -/
def Aged (history : List PageId) (r : Recency) : Prop := r.order.Sublist history.dedup

namespace Aged

variable {r : Recency}

theorem pairwise (h : Aged history r) : r.order.Pairwise (Older history) :=
  (pairwise_older_dedup history).sublist h

theorem forget (h : Aged history r) (p : PageId) : Aged history (r.forget p) :=
  List.filter_sublist.trans h

theorem touch (h : Aged history r) (p : PageId) : Aged (history ++ [p]) (r.touch p) := by
  unfold Aged
  rw [dedup_concat]
  exact (h.filter _).append_right [p]

theorem append_nil (h : Aged history r) : Aged (history ++ []) r := by rwa [List.append_nil]

/-- A page may be made the last one again right after its use. -/
theorem touch_again (h : Aged (history ++ [p]) r) : Aged (history ++ [p]) (r.touch p) := by
  have h2 := h.touch p
  unfold Aged at h2 ⊢
  rw [dedup_concat, dedup_concat] at h2
  rw [dedup_concat]
  simpa using h2

end Aged

/-! ## Uses of pages -/

/-- Whether the page is fetched first. -/
def Purpose.fetches : Purpose → Bool
  | .fetch | .place _ _ | .remove _ => true
  | .hold | .append _ => false

/-- Whether the page, once changed, is put into the cache. -/
def Purpose.puts : Purpose → Bool
  | .place job _ | .append job => job.installs
  | .remove _ => true
  | .hold | .fetch => false

/-- Whether a page was changed. -/
def Advance.changes : Advance → Bool
  | .done (.ok (.changed _)) => true
  | _ => false

namespace Engine

open Pool

variable {e e' : Engine} {t : TxnId} {purpose : Purpose}

/-- The uses of its page by a request that is granted. -/
def uses (e : Engine) (t : TxnId) (p : PageId) (purpose : Purpose) : List PageId :=
  (if purpose.fetches && (e.load p).2.isOk then [p] else []) ++
    if purpose.puts && (e.serve t p purpose).2.changes then [p] else []

/-- The uses of pages by an act. Only requests use pages. -/
def usesOf (e : Engine) : Act → List PageId
  | .turn ticket r which =>
    match e.pool.locks.request ticket r which with
    | (locks, .granted) => (e.withLocks locks).uses r.txn r.page r.purpose
    | _ => []
  | _ => []

/-- The uses of pages by one act after another, oldest first. -/
def usesEach (e : Engine) : List Act → List PageId
  | [] => []
  | a :: acts => e.usesOf a ++ (e.act a).usesEach acts

theorem aged_install {c c' : Pool} (h : Aged history c.recency) {page : Page} {f : Frame}
    (hi : c.install p page = .ok (c', f)) : Aged (history ++ [p]) c'.recency := by
  unfold install at hi
  split at hi
  · cases hi
  · next c1 hr =>
    obtain ⟨rfl, -⟩ := Prod.mk.inj (Except.ok.inj hi)
    rcases room_cases hr with ⟨rfl, -⟩ | ⟨-, he⟩
    · exact h.touch p
    · obtain ⟨-, v, -, -, -, -, hrec⟩ := evict_eq_ok he
      change Aged (history ++ [p]) (c1.recency.touch p)
      rw [hrec]
      exact (h.forget v).touch p

/-- A page that was loaded is the one used last. -/
theorem aged_load (h : Aged history e.pool.recency) {f : Frame} (hl : e.load p = (e', .ok f)) :
    Aged (history ++ [p]) e'.pool.recency := by
  unfold load at hl
  split at hl
  · next pool f' hh =>
    obtain ⟨rfl, -⟩ := Prod.mk.inj hl
    obtain ⟨f'', -, he⟩ := Option.map_eq_some_iff.1 hh
    obtain ⟨rfl, -⟩ := Prod.mk.inj he
    exact h.touch p
  · dsimp only at hl
    split at hl
    · cases hl
    · split at hl
      · cases hl
      · next hi =>
        obtain ⟨rfl, -⟩ := Prod.mk.inj hl
        exact aged_install (c := { e.pool with counters := e.pool.counters.addMiss.addRead }) h hi

theorem recency_load_error {x : Error} (hl : e.load p = (e', .error x)) :
    e'.pool.recency = e.pool.recency := by
  unfold load at hl
  split at hl
  · cases hl
  · dsimp only at hl
    split at hl
    · obtain ⟨rfl, -⟩ := Prod.mk.inj hl
      rfl
    · split at hl
      · obtain ⟨rfl, -⟩ := Prod.mk.inj hl
        rfl
      · cases hl

/-! ## What a request does with the page that it fetched -/

theorem changes_nextPlace (job : Placement) (page count : Nat) :
    (HeapFile.nextPlace job page count).changes = false := by
  unfold HeapFile.nextPlace
  split <;> rfl

theorem serve_of_load_error (hf : purpose.fetches = true) {x : Error}
    (hl : e.load p = (e', .error x)) : e.serve t p purpose = (e', .done (.error x)) := by
  cases purpose with
  | hold => cases hf
  | fetch => rw [serve, serveFetch, hl]
  | place job limit => rw [serve, servePlace, hl]
  | append job => cases hf
  | remove record => rw [serve, serveRemove, hl]

/-- It leaves the page as it is, or puts it back changed. -/
theorem serve_of_load (hf : purpose.fetches = true) {f : Frame} (hl : e.load p = (e', .ok f)) :
    ((e.serve t p purpose).1 = e' ∧ (e.serve t p purpose).2.changes = false) ∨
    ∃ page, (e.serve t p purpose).1 = { e' with pool := e'.pool.replace p f page t } ∧
      (e.serve t p purpose).2.changes = true := by
  cases purpose with
  | hold => cases hf
  | append job => cases hf
  | fetch =>
    rw [serve, serveFetch, hl]
    exact .inl ⟨rfl, rfl⟩
  | place job limit =>
    rw [serve, servePlace, hl]
    dsimp only
    split
    · exact .inl ⟨rfl, changes_nextPlace job _ limit⟩
    · split
      · exact .inl ⟨rfl, rfl⟩
      · exact .inr ⟨_, rfl, rfl⟩
  | remove record =>
    rw [serve, serveRemove, hl]
    dsimp only
    split
    · exact .inl ⟨rfl, rfl⟩
    · exact .inr ⟨_, rfl, rfl⟩

/-! ## The order follows the history -/

theorem aged_serve_of_fetches (h : Aged history e.pool.recency) (hf : purpose.fetches = true) :
    Aged (history ++ e.uses t p purpose) (e.serve t p purpose).1.pool.recency := by
  unfold uses
  rw [hf, Bool.true_and]
  rcases hl : e.load p with ⟨e', x | f⟩
  · rw [serve_of_load_error hf hl, recency_load_error hl]
    simpa [Except.isOk, Except.toBool, Advance.changes] using h
  · have hfetched := aged_load h hl
    rcases serve_of_load (t := t) hf hl with ⟨he, hc⟩ | ⟨page, he, hc⟩
    · rw [he, hc]
      simpa [Except.isOk, Except.toBool] using hfetched
    · rw [he, hc, Bool.and_true]
      change Aged _ (e'.pool.recency.touch p)
      cases purpose.puts with
      | true => simpa [Except.isOk, Except.toBool] using hfetched.touch p
      | false => simpa [Except.isOk, Except.toBool] using hfetched.touch_again

theorem aged_enter (h : Aged history e.pool.recency) (page : Page) (installs : Bool) :
    Aged (history ++ if installs && (e.enter p page installs).2.changes then [p] else [])
      (e.enter p page installs).1.pool.recency := by
  cases installs with
  | false => simpa [enter] using h
  | true =>
    rcases hi : e.pool.install p page with x | ⟨pool, f⟩
    · simpa [enter, hi, Advance.changes] using h
    · simpa [enter, hi, Advance.changes] using aged_install h hi

theorem aged_serveAppend (h : Aged history e.pool.recency) (job : Placement) :
    Aged (history ++ e.uses t p (.append job)) (e.serveAppend t p job).1.pool.recency := by
  simp only [uses, Purpose.fetches, Purpose.puts, Bool.false_and, serve]
  rcases hc : job.file.pageCount e.store.volume with x | count
  · simpa [serveAppend, hc, Advance.changes] using h
  · by_cases hne : count ≠ p.index
    · simpa [serveAppend, hc, hne, changes_nextPlace] using h
    · rcases ha : job.file.appendPage e.store.volume p.index job.tuple with ⟨v, x⟩ | ⟨v, page⟩
      · simpa [serveAppend, hc, hne, ha, Advance.changes] using h
      · have hentered := aged_enter (p := p) (e := { e with store := { e.store with volume := v } }) h
          (page.withDirtier (some t)) job.installs
        simpa [serveAppend, hc, hne, ha] using hentered

theorem aged_serve (h : Aged history e.pool.recency) (purpose : Purpose) :
    Aged (history ++ e.uses t p purpose) (e.serve t p purpose).1.pool.recency := by
  cases purpose with
  | hold => exact h.append_nil
  | fetch => exact aged_serve_of_fetches h rfl
  | place job limit => exact aged_serve_of_fetches h rfl
  | append job => exact aged_serveAppend h job
  | remove record => exact aged_serve_of_fetches h rfl

theorem aged_turn (h : Aged history e.pool.recency) (ticket : Ticket) (r : LockRequest Purpose)
    (which : Turn) :
    Aged (history ++ e.usesOf (.turn ticket r which)) (e.turn ticket r which).1.pool.recency := by
  rcases hq : e.pool.locks.request ticket r which with ⟨locks, verdict⟩
  cases verdict with
  | granted =>
    simp only [usesOf, turn, hq]
    exact aged_serve (e := e.withLocks locks) h r.purpose
  | asleep =>
    simp only [usesOf, turn, hq]
    exact h.append_nil
  | aborted =>
    simp only [usesOf, turn, hq]
    exact h.append_nil

/-! Nothing else but a request uses a page; what else happens may take pages out of the order. -/

theorem aged_flush (h : Aged history e.pool.recency) (hf : e.flush p = .ok e') :
    Aged history e'.pool.recency := by
  rcases flush_eq_ok hf with ⟨rfl, -⟩ | ⟨f, s, -, -, -, rfl⟩ <;> exact h

theorem aged_flushEach : ∀ (ps : List PageId) {e : Engine}, Aged history e.pool.recency →
    Aged history (e.flushEach ps).1.pool.recency
  | [], _, h => h
  | p :: ps, e, h => by
    rw [flushEach]
    split
    · exact h
    · next hf => exact aged_flushEach ps (aged_flush h hf)

theorem aged_discard (h : Aged history e.pool.recency) (p : PageId) :
    Aged history (e.discard p).1.pool.recency := by
  unfold discard
  split
  · exact h
  · next hf => exact (aged_flush h hf).forget p

theorem aged_restore (h : Aged history e.pool.recency) (p : PageId) :
    Aged history (e.restore p).1.pool.recency := by
  unfold restore
  split
  · exact h.forget p
  · exact h

theorem aged_restoreEach : ∀ (ps : List PageId) {e : Engine}, Aged history e.pool.recency →
    Aged history (e.restoreEach ps).1.pool.recency
  | [], _, h => h
  | p :: ps, _, h => aged_restoreEach ps (aged_restore h p)

theorem aged_keepChanges (h : Aged history e.pool.recency) (t : TxnId) :
    Aged history (e.keepChanges t).engine.pool.recency := by
  have hflush := aged_flushEach (e.pool.dirtyPages (· == t)) h
  unfold keepChanges flushTxn
  split
  · next hx => rwa [hx] at hflush
  · next hok =>
    rw [hok] at hflush
    exact hflush

theorem recency_edit (c : Pool) (handle : Handle) (call : Page.Call) :
    (c.edit handle call).recency = c.recency := by
  unfold Pool.edit
  split
  · split <;> rfl
  · rfl

/-- Every act leaves the order of use as the history says, with its own uses added. -/
theorem aged_act (h : Aged history e.pool.recency) (a : Act) :
    Aged (history ++ e.usesOf a) (e.act a).pool.recency := by
  cases a with
  | turn ticket r which => exact aged_turn h ticket r which
  | keep t => exact (aged_keepChanges h t).append_nil
  | drop t => exact (aged_restoreEach (e.pool.dirtyPages (· == t)) h).append_nil
  | release t p => exact h.append_nil
  | flush ps => exact (aged_flushEach ps h).append_nil
  | discard p => exact (aged_discard h p).append_nil
  | edit handle call =>
    have hedit : Aged history (e.pool.edit handle call).recency := (recency_edit ..).symm ▸ h
    exact hedit.append_nil
  | aside counters latched => exact h.append_nil
  | storage s => exact h.append_nil

theorem aged_actEach : ∀ (acts : List Act) {e : Engine} {history : List PageId},
    Aged history e.pool.recency → Aged (history ++ e.usesEach acts) (e.actEach acts).pool.recency
  | [], _, _, h => h.append_nil
  | a :: acts, e, history, h => by
    rw [usesEach, ← List.append_assoc]
    exact aged_actEach acts (aged_act h a)

end Engine
end PageStore
