import PageStore.Proofs.Interleaving.Coherence
import PageStore.Proofs.Pool.Alike

/-!
# Operations, scans and completions of twins

Two engines are `Twins` over a storage if they are alike, backed, and have the tables of that
storage, which never fail to be read. Whatever one of them is asked to do, the other is asked
too: they come to the same, and stay twins, unless one of them finds nothing to evict.

Results:
* `Twins.turn`, `Twins.perform`, `Twins.take`: a turn, an operation, items taken by a cursor.
* `Twins.keepChanges`, `Twins.dropChanges`, `Twins.commit`: completions.
* `Twins.flushEach`, `Twins.discard`: write-backs.
-/
namespace PageStore.Engine

structure Twins (s : Store) (e e' : Engine) : Prop extends Alike e e' where
  backed : Backed e
  backed' : Backed e'
  catalog : e.store.catalog = s.catalog
  readable : s.Readable

variable {s : Store} {e e' e1 e1' : Engine} {t : TxnId} {r : LockRequest Purpose}

theorem Twins.readable_store (h : Twins s e e') : e.store.Readable := by
  unfold Store.Readable
  rw [h.catalog]
  exact h.readable

theorem proper_congr {s s' : Store} (h : s'.catalog = s.catalog) (hr : r.Proper s) : r.Proper s' :=
  proper_of_files (fun t _ hf => (Store.file_of_catalog h t).trans hf) hr

/-- What is proper over the storage is so in both. -/
theorem Twins.proper (h : Twins s e e') (hr : r.Proper s) : r.Proper e.store ∧ r.Proper e'.store :=
  ⟨proper_congr h.catalog hr, h.store ▸ proper_congr h.catalog hr⟩

/-! ## Turns -/

theorem plain_progressOf (t : TxnId) (a : Advance) :
    (progressOf t a).plain = progressOf t a.plain := by
  cases a <;> rfl

theorem lacksRoom_progressOf (t : TxnId) (a : Advance) :
    (progressOf t a).lacksRoom = a.lacksRoom := by
  cases a <;> rfl

theorem proper_next (hb : Backed e) (hr : r.Proper e.store) {ticket : Ticket} {which : Turn}
    {r' : LockRequest Purpose} (h : (e.turn ticket r which).2 = .next r') :
    r'.Proper (e.turn ticket r which).1.store := by
  rcases turn_cases e ticket r which with ⟨-, he⟩ | ⟨-, he⟩ | ⟨-, he⟩
  · rw [he] at h ⊢
    exact ((serve_spec (hb.withLocks (e.pool.locks.request ticket r which).1) hr).proper hr h).2
  · rw [he] at h
    cases h
  · rw [he] at h
    cases h

theorem Twins.turn (h : Twins s e e') (hr : r.Proper s) {ticket : Ticket} {which : Turn}
    (hroom : (e.turn ticket r which).2.lacksRoom = false)
    (hroom' : (e'.turn ticket r which).2.lacksRoom = false) :
    (e'.turn ticket r which).2.plain = (e.turn ticket r which).2.plain ∧
      Twins s (e.turn ticket r which).1 (e'.turn ticket r which).1 := by
  obtain ⟨hproper, hproper'⟩ := h.proper hr
  have hsame : (e'.turn ticket r which).2.plain = (e.turn ticket r which).2.plain ∧
      Alike (e.turn ticket r which).1 (e'.turn ticket r which).1 := by
    unfold Engine.turn at *
    rw [h.locks] at *
    split
    · next locks hl =>
      rw [hl] at hroom hroom'
      dsimp only at *
      rw [lacksRoom_progressOf] at hroom hroom'
      rw [plain_progressOf, plain_progressOf]
      obtain ⟨hplain, halike⟩ := (h.toAlike.withLocks locks).serve (h.backed.withLocks locks)
        (h.backed'.withLocks locks) h.readable_store hroom hroom'
      exact ⟨congrArg _ hplain, halike⟩
    · exact ⟨rfl, h.toAlike.withLocks _⟩
    · exact ⟨rfl, h.store, rfl, h.draft⟩
  exact ⟨hsame.1, hsame.2, h.backed.turn hproper ticket which, h.backed'.turn hproper' ticket which,
    (catalog_turn h.backed.tidy ticket r which).trans h.catalog, h.readable⟩

theorem Twins.next_proper (h : Twins s e e') (hr : r.Proper s) {ticket : Ticket} {which : Turn}
    {r' : LockRequest Purpose} (hnext : (e.turn ticket r which).2 = .next r') : r'.Proper s := by
  have hproper := (h.proper hr).1
  exact proper_congr (h.catalog.symm.trans (catalog_turn h.backed.tidy ticket r which).symm)
    (proper_next h.backed hproper hnext)

/-! ## Operations -/

theorem lacksRoom_turnAlone {ticket : Ticket} {which : Turn}
    (h : (e.turnAlone ticket r which).2.lacksRoom = false) :
    (e.turn ticket r which).2.lacksRoom = false := by
  unfold turnAlone at h
  split at h
  · next h1 =>
    rw [h1]
    rfl
  · exact h

theorem Twins.turnAlone (h : Twins s e e') (hr : r.Proper s) {ticket : Ticket} {which : Turn}
    (hroom : (e.turnAlone ticket r which).2.lacksRoom = false)
    (hroom' : (e'.turnAlone ticket r which).2.lacksRoom = false) :
    (e'.turnAlone ticket r which).2.plain = (e.turnAlone ticket r which).2.plain ∧
      Twins s (e.turnAlone ticket r which).1 (e'.turnAlone ticket r which).1 ∧
      ∀ r', (e.turnAlone ticket r which).2 = .next r' → r'.Proper s := by
  obtain ⟨hplain, htwins⟩ := h.turn hr (lacksRoom_turnAlone hroom) (lacksRoom_turnAlone hroom')
  have hnext : ∀ r', (e.turn ticket r which).2 = .next r' → r'.Proper s := fun _ => h.next_proper hr
  unfold Engine.turnAlone at *
  generalize e.turn ticket r which = l at *
  generalize e'.turn ticket r which = l' at *
  obtain ⟨e1, progress⟩ := l
  obtain ⟨e1', progress'⟩ := l'
  cases progress with
  | done result =>
    obtain ⟨result', rfl, hresult⟩ := Progress.eq_done hplain
    exact ⟨congrArg Progress.done hresult, htwins, hnext⟩
  | next r1 =>
    obtain rfl := Progress.eq_next hplain
    exact ⟨rfl, htwins, hnext⟩
  | asleep =>
    obtain rfl := Progress.eq_asleep hplain
    dsimp only at *
    rw [htwins.locks] at *
    cases hpolicy : e1.pool.locks.policy with
    | cycleDetection => exact ⟨rfl, htwins, fun _ h => by cases h⟩
    | timeout duration =>
      rw [hpolicy] at hroom hroom'
      obtain ⟨hplain, hlast⟩ := htwins.turn hr hroom hroom'
      exact ⟨hplain, hlast, fun r' => htwins.next_proper hr⟩

/-- The first turn of an operation that nobody disturbs, and what follows it. -/
theorem settle_of_turnAlone {ticket : Ticket} {which : Turn} {progress : Progress}
    (h : e.turnAlone ticket r which = (e1, progress)) :
    e.settle ticket r which =
      match progress with
      | .done result => (e1, .done result)
      | .asleep => (e1, .asleep)
      | .next r => e1.settle ticket r .first := by
  rw [settle]
  split
  · next h1 => cases h1.symm.trans h; rfl
  · next h1 => cases h1.symm.trans h; rfl
  · next h1 => cases h1.symm.trans h; rfl

theorem lacksRoom_settle {ticket : Ticket} {which : Turn}
    (h : (e.settle ticket r which).2.lacksRoom = false) :
    (e.turnAlone ticket r which).2.lacksRoom = false := by
  cases hturn : e.turnAlone ticket r which with
  | mk e1 progress =>
    rw [settle_of_turnAlone hturn] at h
    cases progress with
    | done result => exact h
    | next r => rfl
    | asleep => rfl

theorem Twins.settle (h : Twins s e e') (hr : r.Proper s) {ticket : Ticket} {which : Turn}
    (hroom : (e.settle ticket r which).2.lacksRoom = false)
    (hroom' : (e'.settle ticket r which).2.lacksRoom = false) :
    (e'.settle ticket r which).2.plain = (e.settle ticket r which).2.plain ∧
      Twins s (e.settle ticket r which).1 (e'.settle ticket r which).1 := by
  have hfirst := lacksRoom_settle hroom
  have hfirst' := lacksRoom_settle hroom'
  fun_induction Engine.settle e ticket r which generalizing e' with
  | case1 e r which e1 result h1 =>
    obtain ⟨hplain, htwins, -⟩ := h.turnAlone hr hfirst hfirst'
    cases h1' : e'.turnAlone ticket r which with
    | mk e1' progress =>
      rw [h1, h1'] at hplain htwins
      obtain ⟨result', rfl, hresult⟩ := Progress.eq_done hplain
      rw [settle_of_turnAlone h1']
      exact ⟨congrArg Rest.done hresult, htwins⟩
  | case2 e r which e1 h1 =>
    obtain ⟨hplain, htwins, -⟩ := h.turnAlone hr hfirst hfirst'
    cases h1' : e'.turnAlone ticket r which with
    | mk e1' progress =>
      rw [h1, h1'] at hplain htwins
      obtain rfl := Progress.eq_asleep hplain
      rw [settle_of_turnAlone h1']
      exact ⟨rfl, htwins⟩
  | case3 e r which e1 r1 h1 ih =>
    obtain ⟨hplain, htwins, hnext⟩ := h.turnAlone hr hfirst hfirst'
    cases h1' : e'.turnAlone ticket r which with
    | mk e1' progress =>
      rw [h1, h1'] at hplain htwins
      rw [h1] at hnext
      obtain rfl := Progress.eq_next hplain
      rw [settle_of_turnAlone h1'] at hroom' ⊢
      exact ih htwins (hnext r1 rfl) hroom hroom' (lacksRoom_settle hroom) (lacksRoom_settle hroom')

theorem begin_congr (h : e'.store = e.store) (op : Operation) : e'.begin op = e.begin op := by
  cases op <;> simp only [begin, h]

theorem Twins.perform (h : Twins s e e') {op : Operation} (ho : op.isProper = true)
    {ticket : Ticket} (hroom : (e.perform ticket t op).2.lacksRoom = false)
    (hroom' : (e'.perform ticket t op).2.lacksRoom = false) :
    (e'.perform ticket t op).2.plain = (e.perform ticket t op).2.plain ∧
      Twins s (e.perform ticket t op).1 (e'.perform ticket t op).1 := by
  unfold Engine.perform at *
  rw [begin_congr h.store] at *
  cases hb : e.begin op with
  | done result => exact ⟨rfl, h⟩
  | ask p mode purpose =>
    rw [hb] at hroom hroom'
    have hproper := proper_begin h.backed.catalog ho t hb
    exact h.settle (proper_congr h.catalog.symm hproper) hroom hroom'

/-! ## Scans -/

section
variable {c c1 : Cursor} {left left1 : Option Nat} {items : List ScanItem} {ticket : Ticket}

theorem take_of_complete (h : c.take e.store.volume left = .complete items c1) :
    e.take ticket t c left = (e, .done items c1) := by
  rw [Engine.take]
  split
  · next h1 =>
    cases h1.symm.trans h
    rfl
  · next h1 => cases h1.symm.trans h

/-- The first page that a taker loads, and what follows it. -/
theorem take_of_load {p : PageId} (h : c.take e.store.volume left = .load items left1 c1 p) :
    e.take ticket t c left =
      match e.perform ticket t (.fetch p .shared) with
      | (e1, .asleep) => (e1, .asleep items left1 c1)
      | (e1, .done (.error x)) => (e1, .done (items ++ Cursor.failure left1 x) c1.stop)
      | (e1, .done (.ok outcome)) =>
        match outcome.fetched? with
        | some page =>
          ((e1.take ticket t (c1.fill page.rows) left1).1,
            (e1.take ticket t (c1.fill page.rows) left1).2.after items)
        | none => (e1, .done items c1) := by
  rw [Engine.take]
  split
  · next h1 => cases h1.symm.trans h
  · next h1 =>
    cases h1.symm.trans h
    split
    · next h2 => rw [h2]
    · next h2 => rw [h2]
    · next h2 =>
      rw [h2]
      rfl
    · next outcome hother h2 =>
      rw [h2]
      cases outcome with
      | fetched f page => exact absurd rfl (hother f page)
      | locked => rfl
      | changed page => rfl

end

/-- A taker that is not stopped by a full cache is not stopped at its first page. -/
theorem lacksRoom_take {c c1 : Cursor} {left left1 : Option Nat} {items : List ScanItem}
    {ticket : Ticket} {p : PageId} (h : c.take e.store.volume left = .load items left1 c1 p)
    (hroom : (e.take ticket t c left).2.lacksRoom = false) :
    (e.perform ticket t (.fetch p .shared)).2.lacksRoom = false := by
  rw [take_of_load h] at hroom
  generalize e.perform ticket t (.fetch p .shared) = l at *
  obtain ⟨e1, result | _⟩ := l
  · cases result with
    | error x =>
      simp only [TakeRest.lacksRoom, TakeRest.items, List.any_append, Bool.or_eq_false_iff] at hroom
      have hfailure := hroom.2
      unfold Cursor.failure at hfailure
      change x.lacksRoom = false
      split at hfailure <;> simpa [ScanItem.lacksRoom] using hfailure
    | ok outcome => rfl
  · rfl

theorem Twins.take (h : Twins s e e') {c c' : Cursor} (hc : c'.plain = c.plain) {left : Option Nat}
    {ticket : Ticket} (hroom : (e.take ticket t c left).2.lacksRoom = false)
    (hroom' : (e'.take ticket t c' left).2.lacksRoom = false) :
    (e'.take ticket t c' left).2.plain = (e.take ticket t c left).2.plain ∧
      Twins s (e.take ticket t c left).1 (e'.take ticket t c' left).1 := by
  induction hn : c.pagesLeft e.store.volume using Nat.strong_induction_on
    generalizing e e' c c' left with
  | _ n ih =>
  have htake : (c'.take e'.store.volume left).plain = (c.take e.store.volume left).plain := by
    rw [← Cursor.take_plain, ← Cursor.take_plain, hc, h.store]
  cases htaken : c.take e.store.volume left with
  | complete items c1 =>
    rw [htaken] at htake
    obtain ⟨items', c1', htaken', hitems, hcursor⟩ := Cursor.Taking.eq_complete htake
    rw [take_of_complete htaken, take_of_complete htaken']
    exact ⟨congrArg₂ TakeRest.done hitems hcursor, h⟩
  | load items left1 c1 p =>
    rw [htaken] at htake
    obtain ⟨items', c1', htaken', hitems, hcursor⟩ := Cursor.Taking.eq_load htake
    have hproper : (Operation.fetch p .shared).isProper = true := rfl
    obtain ⟨hplain, htwins⟩ := h.perform hproper (lacksRoom_take htaken hroom)
      (lacksRoom_take htaken' hroom')
    have hstore := store_perform_fetch e ticket t p .shared
    have hfewer := fun rows => Cursor.pagesLeft_load_lt htaken rows
    rw [take_of_load htaken] at hroom ⊢
    rw [take_of_load htaken'] at hroom' ⊢
    generalize e.perform ticket t (.fetch p .shared) = l at *
    generalize e'.perform ticket t (.fetch p .shared) = l' at *
    obtain ⟨e1, rest⟩ := l
    obtain ⟨e1', rest'⟩ := l'
    cases rest with
    | asleep =>
      obtain rfl := Rest.eq_asleep hplain
      exact ⟨congrArg₂ (TakeRest.asleep · left1 ·) hitems hcursor, htwins⟩
    | done result =>
      obtain ⟨result', rfl, hresult⟩ := Rest.eq_done hplain
      rcases except_map_eq_map hresult with ⟨x, rfl, rfl⟩ | ⟨outcome', outcome, rfl, rfl, houtcome⟩
      · refine ⟨congrArg₂ TakeRest.done ?_ (congrArg Cursor.stop hcursor), htwins⟩
        rw [List.map_append, List.map_append, hitems]
      · rcases Outcome.fetched_of_plain houtcome with
          ⟨hpage, hpage'⟩ | ⟨page, page', hpage, hpage', hplain⟩
        · dsimp only
          rw [hpage, hpage']
          exact ⟨congrArg₂ TakeRest.done hitems hcursor, htwins⟩
        · dsimp only at *
          rw [hpage] at hroom ⊢
          rw [hpage'] at hroom' ⊢
          dsimp only at *
          have hfill := Cursor.plain_fill hcursor hplain
          have hleft : (c1.fill page.rows).pagesLeft e1.store.volume < n := by
            rw [hstore, ← hn]
            exact hfewer page.rows
          rw [TakeRest.lacksRoom_after, Bool.or_eq_false_iff] at hroom hroom'
          obtain ⟨hrest, htwins⟩ := ih _ hleft htwins hfill hroom.2 hroom'.2 rfl
          rw [TakeRest.plain_after, TakeRest.plain_after, hitems, hrest]
          exact ⟨rfl, htwins⟩

/-! ## Write-backs and completions -/

theorem Twins.flushEach (h : Twins s e e') (ps : List PageId) :
    (e'.flushEach ps).2 = (e.flushEach ps).2 ∧ Twins s (e.flushEach ps).1 (e'.flushEach ps).1 := by
  obtain ⟨hresult, halike⟩ := h.toAlike.flushEach ps
  obtain ⟨hb, hflushed, -⟩ := flushEach_spec ps h.backed
  obtain ⟨hb', -⟩ := flushEach_spec ps h.backed'
  exact ⟨hresult, halike, hb, hb', hflushed.catalog.trans h.catalog, h.readable⟩

theorem Twins.flushDirty (h : Twins s e e') (of : TxnId → Bool) :
    (e'.flushEach (e'.pool.dirtyPages of)).2 = (e.flushEach (e.pool.dirtyPages of)).2 ∧
      Twins s (e.flushEach (e.pool.dirtyPages of)).1 (e'.flushEach (e'.pool.dirtyPages of)).1 := by
  rw [h.dirtyPages]
  exact h.flushEach _

theorem Twins.discard (h : Twins s e e') (p : PageId) :
    (e'.discard p).2 = (e.discard p).2 ∧ Twins s (e.discard p).1 (e'.discard p).1 := by
  obtain ⟨hresult, halike⟩ := h.toAlike.discard p
  obtain ⟨hb, hcases⟩ := discard_spec h.backed p
  have hcatalog : (e.discard p).1.store.catalog = e.store.catalog := by
    rcases hcases with he | ⟨e1, hflushed, hturn, -⟩
    · rw [he]
    · rw [hturn.store]
      exact hflushed.catalog
  exact ⟨hresult, halike, hb, (discard_spec h.backed' p).1, hcatalog.trans h.catalog, h.readable⟩

theorem Twins.restoreEach (h : Twins s e e') (ps : List PageId) :
    (e'.restoreEach ps).2 = (e.restoreEach ps).2 ∧
      Twins s (e.restoreEach ps).1 (e'.restoreEach ps).1 := by
  obtain ⟨hresult, halike⟩ := h.toAlike.restoreEach ps h.backed.catalog
  have hstore := (restored_restoreEach ps e).reload.store
  exact ⟨hresult, halike, h.backed.restoreEach ps, h.backed'.restoreEach ps,
    (congrArg Store.catalog hstore).trans h.catalog, h.readable⟩

/-- Two completions that come to the same, and leave twins. -/
structure TwinEnds (s : Store) (c c' : Completion) : Prop where
  twins : Twins s c.engine c'.engine
  result : c'.result = c.result
  woken : c'.woken = c.woken

theorem TwinEnds.withResult {c c' : Completion} (h : TwinEnds s c c') (result : Except Error Unit) :
    TwinEnds s { c with result } { c' with result } :=
  ⟨h.twins, rfl, h.woken⟩

/-- Both let go of the same locks, which wakes the same requests. -/
theorem Twins.releaseAll (h : Twins s e e') (t : TxnId) (result : Except Error Unit) :
    TwinEnds s ⟨(e.releaseAll t).1, result, (e.releaseAll t).2⟩
      ⟨(e'.releaseAll t).1, result, (e'.releaseAll t).2⟩ := by
  unfold Engine.releaseAll
  rw [h.locks]
  have htwins := h.toAlike.withLocks (e.pool.locks.releaseAll t).1
  exact ⟨⟨htwins, h.backed.withLocks _, h.backed'.withLocks _, h.catalog, h.readable⟩, rfl, rfl⟩

theorem Twins.keepChanges (h : Twins s e e') (t : TxnId) :
    TwinEnds s (e.keepChanges t) (e'.keepChanges t) := by
  obtain ⟨hresult, htwins⟩ := h.flushDirty (· == t)
  unfold Engine.keepChanges flushTxn
  generalize e.flushEach _ = l at *
  generalize e'.flushEach _ = l' at *
  obtain ⟨e1, result⟩ := l
  obtain ⟨e1', result'⟩ := l'
  cases hresult
  cases result with
  | error x => exact ⟨htwins, rfl, rfl⟩
  | ok => exact htwins.releaseAll t (.ok ())

theorem Twins.dropChanges (h : Twins s e e') (t : TxnId) :
    TwinEnds s (e.dropChanges t) (e'.dropChanges t) := by
  obtain ⟨hfailed, htwins⟩ := h.restoreEach (e.pool.dirtyPages (· == t))
  unfold Engine.dropChanges restoreTxn
  rw [h.dirtyPages]
  generalize e.restoreEach _ = l at *
  generalize e'.restoreEach _ = l' at *
  obtain ⟨e1, failed⟩ := l
  obtain ⟨e1', failed'⟩ := l'
  cases hfailed
  exact htwins.releaseAll t (failed.elim (.ok ()) .error)

theorem Twins.commit (h : Twins s e e') (t : TxnId) : TwinEnds s (e.commit t) (e'.commit t) := by
  have hkept := h.keepChanges t
  have hdropped := hkept.twins.dropChanges t
  unfold Engine.commit
  dsimp only
  rw [hkept.result]
  cases (e.keepChanges t).result with
  | ok => exact hkept
  | error x => exact hdropped.withResult (.error x)

end PageStore.Engine
