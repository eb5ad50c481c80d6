import PageStore.Proofs.Interleaving.Coherence
import PageStore.Proofs.Pool.FailedInsert
import PageStore.Proofs.Pool.Steady

/-!
# What a transaction reads is settled, and stays

A fetched page is locked for its reader until the reader ends. So nobody else
has changed the page without storing it, and nobody else can change it while
the reader is at work: not by inserts and deletes, which need the page for
themselves; not by an abort, which takes back only what was changed; and not by
writing pages back, or dropping them and reading them again.

What a transaction changes shows in the chronicle, since every operation asks
for pages in its own way.

Results:
* `tasked_of_reachable`: requests under way are those that their operations make.
* `undisturbed_step`, `undisturbed_of_reachable`: what a reader holds is steady as long
  as the chronicle shows neither an end of the reader nor a change by it.
* `fetched_page`: a fetch locks its page and shows what is visible there.
* `fetches_are_repeatable`: fetched pages show what is stored, or what their
  reader made of it; and they show it again.
* `exists_fetch_outdated`: what a reader may find where tables share a file.
-/
namespace PageStore

/-- The requests that an operation makes. -/
def Operation.Makes (operation : Operation) (r : LockRequest Purpose) : Prop :=
  match r.purpose with
  | .hold => operation = .lock r.page r.mode
  | .fetch => operation = .fetch r.page r.mode
  | .place job _ | .append job => ∃ table, operation = .insert table job.tuple
  | .remove record => operation = .delete (some record)

namespace Engine

variable {e e' : Engine} {t : TxnId} {p : PageId} {mode : LockMode} {purpose : Purpose}
  {operation : Operation} {a : Advance}

theorem makes_nextPlace {table : TableId} {job : Placement} {page count : Nat}
    {r : LockRequest Purpose} (h : progressOf t (HeapFile.nextPlace job page count) = .next r) :
    (Operation.insert table job.tuple).Makes r := by
  unfold HeapFile.nextPlace at h
  split at h <;> cases h <;> exact ⟨table, rfl⟩

theorem makes_begin (ho : operation.isProper = true) (t : TxnId)
    (h : e.begin operation = .ask p mode purpose) : operation.Makes ⟨t, p, mode, purpose⟩ := by
  cases operation with
  | lock => cases h; rfl
  | fetch => cases h; rfl
  | insertInto => cases ho
  | deleteFrom => cases ho
  | insert table tuple =>
    unfold begin at h
    dsimp only at h
    split at h
    · cases h
    · next m hm =>
      unfold HeapFile.beginInsert at h
      split at h
      · split at h
        · cases h
        · next count _ =>
          have hnext : progressOf t (HeapFile.nextPlace ⟨m.file, tuple, true⟩ 0 count) =
              .next ⟨t, p, mode, purpose⟩ := by
            rw [h]
            rfl
          exact makes_nextPlace hnext
      · cases h
  | delete record =>
    unfold begin at h
    dsimp only at h
    split at h
    · cases h
    · split at h
      · cases h
      · unfold HeapFile.beginDelete at h
        dsimp only at h
        split at h
        · cases h
        · cases h
          rfl

/-- Only an insert asks again, for the next page. -/
theorem Served.makes (h : Served e t p purpose e' a) (hm : operation.Makes ⟨t, p, mode, purpose⟩)
    {r : LockRequest Purpose} (hn : progressOf t a = .next r) : operation.Makes r := by
  cases h with
  | passed =>
    obtain ⟨table, rfl⟩ := hm
    exact makes_nextPlace hn
  | overtaken =>
    obtain ⟨table, rfl⟩ := hm
    exact makes_nextPlace hn
  | _ => cases hn

/-- Only an insert or a delete changes a page. -/
theorem Served.change (h : Served e t p purpose e' a) {page : Page}
    (ha : a = .done (.ok (.changed page))) (hm : operation.Makes ⟨t, p, mode, purpose⟩) :
    ∃ change, operation.change? = some change := by
  cases h with
  | changed h ht hp hd hn =>
    cases hd with
    | place =>
      obtain ⟨table, rfl⟩ := hm
      exact ⟨_, rfl⟩
    | remove =>
      obtain rfl := hm
      exact ⟨_, rfl⟩
  | appended =>
    obtain ⟨table, rfl⟩ := hm
    exact ⟨_, rfl⟩
  | passed => exact absurd ha (nextPlace_ne_done _ _ _ _)
  | overtaken => exact absurd ha (nextPlace_ne_done _ _ _ _)
  | _ => cases ha

theorem progressOf_done {result : Except Error Outcome} (h : progressOf t a = .done result) :
    a = .done result := by
  cases a with
  | done => cases h; rfl
  | ask => cases h

/-- A page that was fetched stands in the cache, and is the one that was visible before. -/
theorem serveFetch_eq_ok {f : Handle} {page : Page}
    (h : (e.serveFetch p).2 = .done (.ok (.fetched f page))) :
    (e.serveFetch p).1.pool.page? p = some page ∧ e.visible? p = some page ∧
      (e.serveFetch p).1.pool.locks = e.pool.locks := by
  unfold serveFetch at h ⊢
  split at h
  · cases h
  · next e1 frame hl =>
    cases h
    obtain ⟨hcached, hvisible⟩ := load_eq_ok hl
    exact ⟨Pool.page?_eq_some.2 ⟨frame, hcached, rfl⟩, hvisible, (load_turnover hl).rules.locks⟩

end Engine

/-- Two pages at the same place of the same file that show the same are the same. -/
theorem Store.Fits.sameContent {s s' : Store} {a b : Page} (ha : s.Fits a) (hb : s'.Fits b)
    (hfile : ∀ u, s'.file? u = s.file? u) (hid : a.id = b.id) (hsa : a.Sound) (hsb : b.Sound)
    (hg : a.grid = b.grid) : a.sameContent b = true := by
  obtain ⟨m, hm, hl, hsize⟩ := ha
  obtain ⟨m', hm', hl', hsize'⟩ := hb
  have hf := hfile a.id.table
  rw [file?, file?, hm, hid, hm'] at hf
  have hmount : m'.file = m.file := Option.some.inj hf
  refine (Page.sameContent_iff hsa hsb).2 ⟨hid, ?_, ?_, hg⟩
  · rw [hsize, hsize', hmount]
  · rw [hl, hl', hmount]

/-- The entry says that `t` changed the page, or ended. -/
def Entry.Involves (t : TxnId) (p : PageId) : Entry → Prop
  | .changed u _ q _ => u = t ∧ q = p
  | .ended u _ => u = t

instance (t : TxnId) (p : PageId) : DecidablePred (Entry.Involves t p)
  | .changed .. => inferInstanceAs (Decidable (_ ∧ _))
  | .ended .. => inferInstanceAs (Decidable (_ = _))

namespace World

/-- The world is coherent, and the operations under way have made their own requests. -/
structure Tasked (w : World) : Prop where
  coherent : w.Coherent
  active : ∀ (t : TxnId) (a : Activity), w.active[t]? = some a → a.operation.Makes a.request

/-- The page that a turn of `t` ends its fetch of `p` with, if it does. -/
def fetched? (w : World) (t : TxnId) (p : PageId) (mode : LockMode) (which : Turn) : Option Page :=
  match w.active[t]? with
  | none => none
  | some a =>
    if a.operation = .fetch p mode then
      match (w.engine.turn a.ticket a.request which).2 with
      | .done (.ok (.fetched _ page)) => some page
      | _ => none
    else none

/-- A turn of `t` ends its fetch of `p` with a page. -/
def Fetches (w : World) (t : TxnId) (p : PageId) (mode : LockMode) (page : Page) (w' : World) : Prop :=
  ∃ which, w.step (.turn t which) = some w' ∧ w.fetched? t p mode which = some page

variable {w w' : World} {t u : TxnId} {p : PageId} {a : Activity}

/-! ## Operations make their own requests -/

theorem tasked_turn (hw : w.Tasked) (ha : w.active[t]? = some a) (which : Turn) :
    (w.turned t a (w.engine.turn a.ticket a.request which).1
      (w.engine.turn a.ticket a.request which).2).Tasked := by
  refine ⟨coherent_turn hw.coherent ha which, ?_⟩
  intro u b hb
  rcases active_turned ha hb with ⟨b', hb', hoperation, hrequest⟩ | ⟨rfl, hnext, hoperation⟩
  · rw [← hoperation, ← hrequest]
    exact hw.active u b' hb'
  · rw [hoperation]
    obtain ⟨advance, hadvance, -, hserved⟩ := served_of_next hw.coherent ha hnext
    exact hserved.makes (hw.active u a ha) hadvance

theorem tasked_step (hw : w.Tasked) {event : Event} (hs : w.step event = some w') : w'.Tasked := by
  have hc := coherent_step hw.coherent hs
  cases happens hs with
  | begun hidle ho hb =>
    refine ⟨hc, fun u b hu => ?_⟩
    rw [getElem?_active_insert] at hu
    split at hu
    · cases hu
      exact Engine.makes_begin ho _ hb
    · exact hw.active u b hu
  | turned ha => exact tasked_turn hw ha _
  | _ => exact ⟨hc, hw.active⟩

theorem tasked_of_reachable {allowed : Event → Prop} {start : World} (h0 : start.Tasked)
    (h : Reachable allowed start w) : w.Tasked := by
  induction h with
  | start => exact h0
  | step event _ _ hs ih => exact tasked_step ih hs

theorem tasked_fresh {store : Store} (hs : store.catalog.Sound) {capacity : Nat}
    {policy : DeadlockPolicy} {pool : Pool} (hp : Pool.new capacity policy = .ok pool) :
    (fresh store pool).Tasked :=
  ⟨coherent_fresh hs hp, fun t a h => by simp [fresh] at h⟩

/-! ## What a reader holds is steady -/

/-- From `w` to `w'`, the chronicle grows; if it shows neither an end of `t` nor
a change of the page by `t`, the page was steady for `t`. -/
def Undisturbed (w w' : World) (t : TxnId) (p : PageId) : Prop :=
  ∃ added, w'.chronicle = added ++ w.chronicle ∧
    ((∀ entry ∈ added, ¬entry.Involves t p) → Engine.Steady w.engine w'.engine t p)

theorem Undisturbed.of_steady (hc : w'.chronicle = w.chronicle)
    (h : Engine.Steady w.engine w'.engine t p) : Undisturbed w w' t p :=
  ⟨[], hc, fun _ => h⟩

theorem Undisturbed.trans {a b c : World} (h1 : Undisturbed a b t p) (h2 : Undisturbed b c t p) :
    Undisturbed a c t p := by
  obtain ⟨added1, hb, hs1⟩ := h1
  obtain ⟨added2, hc, hs2⟩ := h2
  refine ⟨added2 ++ added1, by rw [hc, hb, List.append_assoc], fun h => ?_⟩
  exact (hs1 fun entry he => h entry (List.mem_append_right _ he)).trans
    (hs2 fun entry he => h entry (List.mem_append_left _ he))

theorem chronicle_turned (w : World) (u : TxnId) (a : Activity) (e : Engine)
    (progress : Engine.Progress) :
    ∃ added, (w.turned u a e progress).chronicle = added ++ w.chronicle := by
  cases progress with
  | done result => exact ⟨_, rfl⟩
  | next r => exact ⟨[], rfl⟩
  | asleep => exact ⟨[], rfl⟩

theorem undisturbed_turn (hw : w.Tasked) (ha : w.active[u]? = some a) (which : Turn) :
    Undisturbed w (w.turned u a (w.engine.turn a.ticket a.request which).1
      (w.engine.turn a.ticket a.request which).2) t p := by
  have hc := hw.coherent.engine.request a.ticket a.request which
  have hrequest := Engine.steady_request w.engine a.ticket a.request which t p
  obtain ⟨added, hadded⟩ := chronicle_turned w u a (w.engine.turn a.ticket a.request which).1
    (w.engine.turn a.ticket a.request which).2
  rcases turn_served hw.coherent ha which with ⟨advance, hp, hown, hserved⟩ | ⟨-, -, hturn⟩
  · rcases hserved.steady hc (hw.coherent.active u a ha).2 hown (t := t) (p := p) with
      hsteady | ⟨hpage, rfl, page, hid, hadvance⟩
    · refine ⟨added, hadded, fun _ => ?_⟩
      rw [engine_turned]
      exact hrequest.trans hsteady
    · -- the change is noted, so nothing is left to show
      obtain ⟨change, hchange⟩ := hserved.change hadvance (hw.active u a ha)
      refine ⟨[.changed u change page.id (w.engine.content? page.id)], ?_, fun h => ?_⟩
      · rw [hp, hadvance, Engine.progressOf, turned, note_changed hchange]
      · exact absurd ⟨rfl, hid.trans hpage⟩ (h _ (List.mem_singleton.2 rfl))
  · refine ⟨added, hadded, fun _ => ?_⟩
    rw [engine_turned]
    exact hrequest.trans (hturn.steady hc)

/-- No step disturbs a page that `t` holds, unless the chronicle says that `t` did. -/
theorem undisturbed_step (hw : w.Tasked) {event : Event} (hs : w.step event = some w') :
    Undisturbed w w' t p := by
  have hc := hw.coherent.engine
  cases happens hs with
  | idle => exact .of_steady rfl (.refl _ t p)
  | begun => exact .of_steady rfl (.refl _ t p)
  | turned ha => exact undisturbed_turn hw ha _
  | @kept u =>
    refine ⟨[.ended u true], rfl, fun h => Engine.steady_keepChanges hc fun _ => ?_⟩
    exact fun htu => h _ (List.mem_singleton.2 rfl) htu.symm
  | broken hx =>
    refine .of_steady rfl (Engine.steady_keepChanges hc fun hok => ?_)
    rw [hok] at hx
    cases hx
  | @dropped u =>
    refine ⟨[.ended u false], rfl, fun h => Engine.steady_dropChanges hc ?_⟩
    exact fun htu => h _ (List.mem_singleton.2 rfl) htu.symm
  | flushed ps => exact .of_steady rfl (Engine.flushEach_spec ps hc.toBacked).2.1.steady
  | discarded => exact .of_steady rfl (Engine.steady_discard hc _)
  | @failing table faults =>
    refine .of_steady rfl (.of_content rfl ?_)
    unfold Engine.content? Engine.visible?
    rw [(Store.sameFiles_withFaults w.engine.store table faults).page p]
  | latching => exact .of_steady rfl (.of_content rfl rfl)

theorem undisturbed_of_reachable {allowed : Event → Prop} {start : World} (h0 : start.Tasked)
    (h : Reachable allowed start w) : Undisturbed start w t p := by
  induction h with
  | start => exact .of_steady rfl (.refl _ t p)
  | step event hr _ hs ih => exact ih.trans (undisturbed_step (tasked_of_reachable h0 hr) hs)

/-! ## Fetches -/

/-- A fetch makes one request, for its page. -/
theorem makes_fetch {mode : LockMode} {r : LockRequest Purpose} (h : (Operation.fetch p mode).Makes r) :
    r.page = p ∧ r.mode = mode ∧ r.purpose = .fetch := by
  unfold Operation.Makes at h
  split at h
  · cases h
  · next hpurpose =>
    cases h
    exact ⟨rfl, rfl, hpurpose⟩
  · obtain ⟨table, h⟩ := h
    cases h
  · obtain ⟨table, h⟩ := h
    cases h
  · cases h

theorem fetched_eq_some {mode : LockMode} {which : Turn} {page : Page}
    (ha : w.active[t]? = some a) (h : w.fetched? t p mode which = some page) :
    a.operation = .fetch p mode ∧
      ∃ f, (w.engine.turn a.ticket a.request which).2 = .done (.ok (.fetched f page)) := by
  unfold fetched? at h
  rw [ha] at h
  dsimp only at h
  split at h
  · next hoperation =>
    split at h
    · next f page' hresult =>
      cases h
      exact ⟨hoperation, f, hresult⟩
    · cases h
  · cases h

/-- A fetched page is locked for its reader, and is the page that was visible there. -/
theorem fetched_page (hw : w.Tasked) {mode : LockMode} {page : Page}
    (hf : w.Fetches t p mode page w') :
    w'.engine.pool.locks.holds t p = true ∧ w'.engine.pool.page? p = some page ∧
      w.engine.visible? p = some page := by
  obtain ⟨which, hs, hfetched⟩ := hf
  obtain ⟨a, ha, rfl⟩ := turn_step hs
  obtain ⟨hoperation, f, hresult⟩ := fetched_eq_some ha hfetched
  obtain ⟨htxn, -⟩ := hw.coherent.active t a ha
  obtain ⟨hpage, -, hpurpose⟩ := makes_fetch (hoperation ▸ hw.active t a ha)
  rw [engine_turned]
  rcases w.engine.turn_cases a.ticket a.request which with ⟨hg, he⟩ | ⟨-, he⟩ | ⟨-, he⟩
  · have hholds := LockTable.holds_of_granted hg
    rw [he] at hresult ⊢
    rw [htxn, hpage] at hholds
    rw [hpage, hpurpose, Engine.serve] at hresult ⊢
    obtain ⟨hcached, hvisible, hlocks⟩ := Engine.serveFetch_eq_ok (Engine.progressOf_done hresult)
    rw [hlocks]
    exact ⟨hholds, hcached, hvisible⟩
  · rw [he] at hresult
    cases hresult
  · rw [he] at hresult
    cases hresult

/-- In every world that any events lead to from a new pool, a fetched page is
dirty for its reader, or else the page that is stored. And if the reader
fetches it once more, having neither ended nor changed the page since, it finds
the same rows in the same slots, whatever happened in between. -/
theorem fetches_are_repeatable {store : Store} (hs : store.catalog.Sound) {capacity : Nat}
    {policy : DeadlockPolicy} {pool : Pool} (hp : Pool.new capacity policy = .ok pool)
    (hw : Reachable (fun _ => True) (fresh store pool) w) {mode : LockMode} {page : Page}
    (hf : w.Fetches t p mode page w') :
    (page.dirtier = some t ∨
      ∃ stored, w'.engine.store.page? p = some stored ∧ page.sameContent stored = true) ∧
    ∀ (v v' : World) (between : List Entry) (mode' : LockMode) (page' : Page),
      Reachable (fun _ => True) w' v → v.chronicle = between ++ w'.chronicle →
      (∀ entry ∈ between, ¬entry.Involves t p) → v.Fetches t p mode' page' v' →
      page.sameContent page' = true := by
  have htasked := tasked_of_reachable (tasked_fresh hs hp) hw
  obtain ⟨hholds, hcached, -⟩ := fetched_page htasked hf
  obtain ⟨which, hstep, -⟩ := hf
  have htasked' := tasked_step htasked hstep
  have hc := htasked'.coherent.engine
  obtain ⟨hid, hsound, hfits⟩ := hc.page p page hcached
  refine ⟨?_, fun v v' between mode' page' hv hbetween hquiet hf' => ?_⟩
  · cases hd : page.dirtier with
    | some u =>
      have howns := hc.owned p page u hcached hd
      exact .inl (congrArg some (howns.eq_of_holds hc.locks hholds).symm)
    | none =>
      obtain ⟨old, hold, hgrid⟩ := hc.stored p page hcached
      obtain ⟨hid', -, hsound', hfits', -⟩ := Store.sound_page? hc.catalog hold
      exact .inr ⟨old, hold, hfits.sameContent hfits' (fun _ => rfl) (hid.trans hid'.symm) hsound
        hsound' (hgrid hd).symm⟩
  · have hv' := tasked_of_reachable htasked' hv
    obtain ⟨added, hadded, hsteady⟩ := undisturbed_of_reachable (t := t) (p := p) htasked' hv
    obtain rfl : between = added := List.append_cancel_right (hbetween.symm.trans hadded)
    obtain ⟨-, hcontent⟩ := hsteady hquiet hholds
    have hshown := hcontent page.grid (Engine.content_of_cached hcached)
    obtain ⟨-, -, hvisible⟩ := fetched_page hv' hf'
    rw [Engine.content?, hvisible, Option.map_some, Option.some_inj] at hshown
    obtain ⟨hid', hsound', hfits', -⟩ := hv'.coherent.engine.visible hvisible
    obtain ⟨-, hfiles⟩ := setup_of_reachable htasked'.coherent hv
    exact hfits.sameContent hfits' hfiles (hid.trans hid'.symm) hsound hsound' hshown.symm

/-- A reader finds its page once more as it was, after a writer had to wait for
it, somebody else changed another page and committed, the page was dropped from
the cache, and a second reader of it aborted. -/
theorem sample_fetches_are_repeatable :
    ∃ w w' v v' page page', (fresh sampleStore samplePool).run
        [.start 1 0 (.insert (.numbered 1) (sampleRow 5)), .turn 1 .first,
          .start 1 1 (.insert (.numbered 1) (sampleRow 6)), .turn 1 .first,
          .start 1 2 (.insert (.numbered 1) (sampleRow 7)), .turn 1 .first, .turn 1 .first, .keep 1,
          .start 2 3 (.fetch (samplePage 0) .shared)] = some w ∧
      w.Fetches 2 (samplePage 0) .shared page w' ∧
      w'.run [.start 3 4 (.delete (some ⟨samplePage 0, 0⟩)), .turn 3 .first,
        .start 4 5 (.delete (some ⟨samplePage 1, 0⟩)), .turn 4 .first, .keep 4,
        .discard (samplePage 0), .start 5 6 (.fetch (samplePage 0) .shared), .turn 5 .first, .drop 5,
        .start 2 7 (.fetch (samplePage 0) .exclusive)] = some v ∧
      v.Fetches 2 (samplePage 0) .exclusive page' v' ∧
      (page.dirtier = some 2 ∨ ∃ stored, w'.engine.store.page? (samplePage 0) = some stored ∧
        page.sameContent stored = true) ∧
      page.sameContent page' = true := by
  have hrun : (((fresh sampleStore samplePool).run
      [.start 1 0 (.insert (.numbered 1) (sampleRow 5)), .turn 1 .first,
        .start 1 1 (.insert (.numbered 1) (sampleRow 6)), .turn 1 .first,
        .start 1 2 (.insert (.numbered 1) (sampleRow 7)), .turn 1 .first, .turn 1 .first, .keep 1,
        .start 2 3 (.fetch (samplePage 0) .shared)]).bind fun w =>
      (w.fetched? 2 (samplePage 0) .shared .first).bind fun _ =>
      (w.step (.turn 2 .first)).bind fun w' =>
      (w'.run [.start 3 4 (.delete (some ⟨samplePage 0, 0⟩)), .turn 3 .first,
        .start 4 5 (.delete (some ⟨samplePage 1, 0⟩)), .turn 4 .first, .keep 4,
        .discard (samplePage 0), .start 5 6 (.fetch (samplePage 0) .shared), .turn 5 .first, .drop 5,
        .start 2 7 (.fetch (samplePage 0) .exclusive)]).bind fun v =>
      (v.fetched? 2 (samplePage 0) .exclusive .first).bind fun _ =>
      (v.step (.turn 2 .first)).map fun _ => decide (v.chronicle =
        [.ended 5 false, .ended 4 true,
          .changed 4 (.delete ⟨samplePage 1, 0⟩) (samplePage 1) (some [some [.int 7], none])] ++
        w'.chronicle)) = some true := by decide +kernel
  obtain ⟨w, hw, h⟩ := Option.bind_eq_some_iff.1 hrun
  obtain ⟨page, hpage, h⟩ := Option.bind_eq_some_iff.1 h
  obtain ⟨w', hw', h⟩ := Option.bind_eq_some_iff.1 h
  obtain ⟨v, hv, h⟩ := Option.bind_eq_some_iff.1 h
  obtain ⟨page', hpage', h⟩ := Option.bind_eq_some_iff.1 h
  obtain ⟨v', hv', h⟩ := Option.map_eq_some_iff.1 h
  have hf : w.Fetches 2 (samplePage 0) .shared page w' := ⟨.first, hw', hpage⟩
  have hf' : v.Fetches 2 (samplePage 0) .exclusive page' v' := ⟨.first, hv', hpage'⟩
  obtain ⟨hsettled, hrepeat⟩ := fetches_are_repeatable sound_sampleStore
    (show Pool.new 2 .cycleDetection = .ok samplePool from rfl)
    (reachable_of_run _ .start (fun _ _ => trivial) hw) hf
  refine ⟨w, w', v, v', page, page', hw, hf, hv, hf', hsettled, ?_⟩
  exact hrepeat v v' _ .exclusive page' (reachable_of_run _ .start (fun _ _ => trivial) hv)
    (of_decide_eq_true h) (by decide) hf'

/-! ## Two tables in one file -/

/-- A fetched page is dirty for its reader, or else the page that is stored. -/
def FetchesStored (start : World) : Prop :=
  ∀ {w w' : World} {t : TxnId} {p : PageId} {mode : LockMode} {page : Page},
    Reachable (fun _ => True) start w → w.Fetches t p mode page w' → page.dirtier = some t ∨
      ∃ stored, w'.engine.store.page? p = some stored ∧ page.sameContent stored = true

/-- A reader who has neither ended nor changed a page finds it once more as it was. -/
def FetchesAgain (start : World) : Prop :=
  ∀ {w w' v v' : World} {t : TxnId} {p : PageId} {mode mode' : LockMode} {page page' : Page}
    {between : List Entry}, Reachable (fun _ => True) start w → w.Fetches t p mode page w' →
    Reachable (fun _ => True) w' v → v.chronicle = between ++ w'.chronicle →
    (∀ entry ∈ between, ¬entry.Involves t p) → v.Fetches t p mode' page' v' →
    page.sameContent page' = true

/-- A reader asks for the page of the first table. -/
def twinRead : List Event := [.start 1 0 (.fetch (samplePage 0) .shared)]

/-- Another transaction deletes the row of that page, by way of the second table. -/
def twinDelete : List Event :=
  [.start 2 1 (.delete (some ⟨⟨.numbered 2, 0⟩, 0⟩)), .turn 2 .first, .keep 2]

/-- After the delete the reader still finds the cached page of before. -/
theorem not_fetchesStored_twinStore : ¬FetchesStored (fresh Engine.twinStore samplePool) := by
  intro hstored
  have hrun : ((fresh Engine.twinStore samplePool).run
      (twinRead ++ .turn 1 .first :: (twinDelete ++ twinRead))).bind (fun w =>
        (w.fetched? 1 (samplePage 0) .shared .first).bind fun page =>
        (w.step (.turn 1 .first)).map fun w' => decide (page.dirtier = none) &&
          (w'.engine.store.page? (samplePage 0)).any fun stored => !page.sameContent stored) =
      some true := by decide +kernel
  obtain ⟨w, hw, h⟩ := Option.bind_eq_some_iff.1 hrun
  obtain ⟨page, hpage, h⟩ := Option.bind_eq_some_iff.1 h
  obtain ⟨w', hw', h⟩ := Option.map_eq_some_iff.1 h
  obtain ⟨hclean, h⟩ := Bool.and_eq_true_iff.1 h
  obtain ⟨stored, hfound, hdiffers⟩ := (Option.any_eq_true _ _).1 h
  rcases hstored (reachable_of_run _ .start (fun _ _ => trivial) hw) ⟨.first, hw', hpage⟩ with
    hdirty | ⟨stored', hfound', hsame⟩
  · cases hdirty.symm.trans (of_decide_eq_true hclean)
  · obtain rfl : stored = stored' := Option.some.inj (hfound.symm.trans hfound')
    rw [hsame] at hdiffers
    cases hdiffers

/-- If the page has left the cache as well, the reader finds what is stored, which is another. -/
theorem not_fetchesAgain_twinStore : ¬FetchesAgain (fresh Engine.twinStore samplePool) := by
  intro hagain
  have hrun : ((fresh Engine.twinStore samplePool).run twinRead).bind (fun w =>
      (w.fetched? 1 (samplePage 0) .shared .first).bind fun page =>
      (w.step (.turn 1 .first)).bind fun w' =>
      (w'.run (twinDelete ++ .discard (samplePage 0) :: twinRead)).bind fun v =>
      (v.fetched? 1 (samplePage 0) .shared .first).bind fun page' =>
      (v.step (.turn 1 .first)).map fun _ => decide (v.chronicle = [.ended 2 true,
        .changed 2 (.delete ⟨⟨.numbered 2, 0⟩, 0⟩) ⟨.numbered 2, 0⟩ (some [some [.int 5]])] ++
          w'.chronicle) && !page.sameContent page') = some true := by decide +kernel
  obtain ⟨w, hw, h⟩ := Option.bind_eq_some_iff.1 hrun
  obtain ⟨page, hpage, h⟩ := Option.bind_eq_some_iff.1 h
  obtain ⟨w', hw', h⟩ := Option.bind_eq_some_iff.1 h
  obtain ⟨v, hv, h⟩ := Option.bind_eq_some_iff.1 h
  obtain ⟨page', hpage', h⟩ := Option.bind_eq_some_iff.1 h
  obtain ⟨v', hv', h⟩ := Option.map_eq_some_iff.1 h
  obtain ⟨hbetween, hdiffers⟩ := Bool.and_eq_true_iff.1 h
  have hsame := hagain (reachable_of_run _ .start (fun _ _ => trivial) hw) ⟨.first, hw', hpage⟩
    (reachable_of_run _ .start (fun _ _ => trivial) hv) (of_decide_eq_true hbetween) (by decide)
    ⟨.first, hv', hpage'⟩
  rw [hsame] at hdiffers
  cases hdiffers

/-- Where two tables share a file, a fetched page need not be the one that is stored, and a second
fetch need not find what the first one found. -/
theorem exists_fetch_outdated :
    ∃ start : World, Pool.new 2 .cycleDetection = .ok start.engine.pool ∧
      ¬FetchesStored start ∧ ¬FetchesAgain start :=
  ⟨fresh Engine.twinStore samplePool, rfl, not_fetchesStored_twinStore, not_fetchesAgain_twinStore⟩

end World
end PageStore
