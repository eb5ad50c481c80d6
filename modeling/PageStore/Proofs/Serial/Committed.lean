import PageStore.Proofs.Interleaving.Accounted
import PageStore.Proofs.Serial.Tables

/-!
# What is stored is what was committed, one transaction after another

At every moment, however transactions interleave, the stored tables trail
nothing but empty pages behind the tables that the committed transactions make
when each of them runs alone, in the order of the commits.

Results:
* `served_tables`, `tables_keepChanges`: what a turn and a commit do to the
  stored tables.
* `serial_step`, `serial_of_reachable`: the invariant, along every run.
-/
namespace PageStore

namespace Store

/-- The stored pages as tables. -/
def tables (s : Store) : Tables := ⟨s.slots, s.pages, s.contents⟩

theorem sound_tables {s : Store} (hc : s.catalog.Sound) : s.tables.Sound := by
  have hpage : ∀ p g, s.contents p = some g → ∃ page, s.page? p = some page := by
    intro p g hg
    obtain ⟨page, hp, -⟩ := Option.map_eq_some_iff.1 hg
    exact ⟨page, hp⟩
  refine ⟨?_, ?_⟩ <;> intro p g hg <;> obtain ⟨page, hp⟩ := hpage p g hg
  · exact (sound_page? hc hp).2.2.2.2
  · obtain ⟨m, hm⟩ := mount_of_page? hp
    change s.slots p.table ≠ 0
    rw [slots, file?, hm]
    exact hc.slots _ m hm

theorem tables_congr {s s' : Store} (hfile : ∀ u, s'.file? u = s.file? u)
    (hpages : ∀ t, s'.pages t = s.pages t) (hpage : ∀ p, s'.page? p = s.page? p) :
    s'.tables = s.tables := by
  have h1 : s'.pages = s.pages := funext hpages
  have h2 : s'.contents = s.contents := funext fun p => contents_congr (hpage p)
  rw [tables, tables, slots_congr hfile, h1, h2]

/-- Writing a page over an old one, or after the last one, sets it. -/
theorem tables_put {s : Store} (hc : s.catalog.Sound) {m : Mount} {page : Page}
    (hm : s.catalog[page.id.table]? = some m) (hp : page.Sound) (hl : page.layout = m.file.layout)
    (hsize : page.size = m.file.pageSize) (hi : page.id.index ≤ s.pages page.id.table) :
    (s.put m page).tables = s.tables.set page.id page.grid := by
  have hshows : ∀ q, (s.put m page).contents q =
      if q = page.id then some page.grid else s.contents q := by
    intro q
    rw [contents, page?_put hc hm hp hsize hi hl q]
    split
    · rw [Option.map_some, Page.grid_asStored]
    · rfl
  rw [tables, funext (pages_put hc hm hp hsize), funext hshows]
  rfl

end Store

namespace Engine

variable {e e' : Engine} {t : TxnId} {p : PageId}

/-- A granted request leaves the stored tables alone, or adds an empty page. -/
theorem served_tables (hc : Coherent e) (ho : e.store.Orderly) {mode : LockMode} {purpose : Purpose}
    {a : Advance} (hr : LockRequest.Proper ⟨t, p, mode, purpose⟩ e.store)
    (h : Served e t p purpose e' a) {s : Tables} (hs : s.Trails e.store.tables) :
    s.Trails e'.store.tables := by
  have stowed : ∀ {m : Mount} {job : Placement} {filled : Page} {r : RecordId},
      e.store.catalog[p.table]? = some m → job.tuple.Sound → p.index = e.store.pages p.table →
      (Page.empty p m.file.layout m.file.pageSize).insert job.tuple = .ok (filled, r) →
      s.Trails (e.stow m (firstImage m.file p filled)).store.tables := by
    intro m job filled r hm hj hi hf
    obtain ⟨-, hid, hsound, hl, hsize⟩ := new_page hj hf
    have hput := Store.tables_put hc.catalog (hid.symm ▸ hm) hsound hl hsize
      (by rw [hid]; exact Nat.le_of_eq hi)
    rw [hid, grid_firstImage ho hm] at hput
    exact hput ▸ hs.extend hi
  cases h with
  | held => exact hs
  | failed h => rw [h.store]; exact hs
  | fetched h => rw [h.store]; exact hs
  | passed h => rw [h.store]; exact hs
  | overtaken => exact hs
  | changed h ht hp hd hn => rw [hn.store, h.store]; exact hs
  | stranded hm hj hi hf => exact stowed hm hr.1.tuple hi hf
  | appended hm hj hi hx hf hn =>
    rw [hn.store]
    exact stowed hm hr.1.tuple hi hf

/-- A commit stores what its transaction saw. -/
theorem tables_keepChanges (hc : Coherent e) {edits : List Edit} (hacc : Account e t edits)
    (hok : (e.keepChanges t).result = .ok ()) :
    (e.keepChanges t).engine.store.tables = e.store.tables.overlaid edits := by
  obtain ⟨e1, hf, hunmoved, hspot, he⟩ := keepChanges_of_ok hc hok
  have hcontents : ∀ q, e1.store.contents q = overlay e.store.contents edits q := by
    intro q
    by_cases hq : q ∈ editedPages edits
    · obtain ⟨page, hp, hd, hover⟩ := hacc.listed q hq
      rcases hf.page q with hu | ⟨page', hw⟩
      · exact absurd hd (hspot q page (hu.cached.trans hp))
      · cases hw.before.symm.trans hp
        rw [hover, Store.contents, hw.stored, Option.map_some, Page.grid_asStored]
    · have hn : q ∉ e.pool.dirtyPages (· == t) := by
        intro hmem
        obtain ⟨page, u, hp, hd, hu⟩ := Pool.mem_dirtyPages.1 hmem
        obtain rfl : u = t := by simpa using hu
        exact hq (hacc.dirty q page hp hd)
      rw [overlay_of_not_mem hq]
      exact Store.contents_congr (hunmoved q hn).stored
  have h1 : e1.store.slots = e.store.slots :=
    Store.slots_congr fun u => by rw [Store.file?, Store.file?, hf.catalog]
  have h2 : e1.store.pages = e.store.pages := funext hf.pages
  have h3 : e1.store.contents = overlay e.store.contents edits := funext hcontents
  rw [he]
  change (⟨e1.store.slots, e1.store.pages, e1.store.contents⟩ : Tables) = _
  rw [h1, h2, h3]
  rfl

end Engine

/-- The transactions that committed, in that order, each with its edits from
the first to the last. -/
def committed : List Entry → List (TxnId × List Edit)
  | [] => []
  | .changed .. :: rest => committed rest
  | .ended t kept :: rest =>
    if kept then committed rest ++ [(t, (pending t rest).reverse)] else committed rest

namespace World

/-- What is stored trails behind what the committed transactions make of the
tables `start` one after another. -/
def Serial (start : Tables) (w : World) : Prop :=
  ∃ s, start.execute? (committed w.chronicle) = some s ∧ s.Trails w.engine.store.tables

variable {w w' : World} {t : TxnId} {a : Activity} {start : Tables}

/-- A turn commits nothing. -/
theorem committed_turned (w : World) (t : TxnId) (a : Activity) (e : Engine)
    (progress : Engine.Progress) :
    committed (w.turned t a e progress).chronicle = committed w.chronicle := by
  cases progress with
  | done result =>
    change committed (w.note t a result ++ w.chronicle) = _
    unfold note
    split <;> rfl
  | next r => rfl
  | asleep => rfl

theorem Serial.same (h : w.Serial start) (hc : committed w'.chronicle = committed w.chronicle)
    (ht : w'.engine.store.tables = w.engine.store.tables) : w'.Serial start := by
  unfold Serial
  rw [hc, ht]
  exact h

theorem serial_turn (hw : w.Accounted) (h : w.Serial start) (ha : w.active[t]? = some a) (which : Turn) :
    (w.turned t a (w.engine.turn a.ticket a.request which).1
      (w.engine.turn a.ticket a.request which).2).Serial start := by
  obtain ⟨s, hs, htrails⟩ := h
  refine ⟨s, ?_, ?_⟩
  · rw [committed_turned]
    exact hs
  · rw [engine_turned]
    have hcg : (w.granted a which).Coherent := hw.coherent.engine.request a.ticket a.request which
    rcases turn_served hw.coherent ha which with ⟨advance, -, -, hserved⟩ | ⟨-, -, hturn⟩
    · have hproper : LockRequest.Proper
          ⟨t, a.request.page, a.request.mode, a.request.purpose⟩ (w.granted a which).store :=
        (hw.coherent.active t a ha).2
      exact Engine.served_tables hcg hw.orderly hproper hserved htrails
    · rw [hturn.store]
      exact htrails

theorem serial_step (hw : w.Accounted) (h : w.Serial start) {event : Event}
    (ha : event.isOrderly = true) (hs : w.step event = some w') : w'.Serial start := by
  cases happens hs with
  | idle => exact h
  | begun => exact h
  | turned hact => exact serial_turn hw h hact _
  | @kept t hidle hok =>
    have htables := Engine.tables_keepChanges hw.coherent.engine (hw.account t) hok
    obtain ⟨s, hexec, htrails⟩ := h
    have hsound := Store.sound_tables hw.coherent.engine.catalog
    obtain ⟨s1, hedits, htrails1⟩ := htrails.edits hsound (hw.account t).lawful
    refine ⟨s1, ?_, ?_⟩
    · dsimp only
      rw [committed, if_pos rfl, Tables.execute_append, hexec, Option.bind_some, Tables.execute?,
        hedits]
      rfl
    · dsimp only
      rw [htables]
      exact htrails1
  | @broken t x hx =>
    rw [hw.keeps t] at hx
    cases hx
  | @dropped t =>
    exact h.same rfl (congrArg Store.tables (Engine.store_dropChanges _ t))
  | flushed ps he => exact absurd ha (Event.not_isOrderly_of_isFlush he)
  | discarded => cases ha
  | @failing table faults =>
    have hfiles := Store.sameFiles_withFaults w.engine.store table faults
    exact h.same rfl (Store.tables_congr hfiles.file hfiles.pages hfiles.page)
  | latching => exact h

theorem serial_of_reachable {start : World} (h0 : start.Accounted) (hempty : start.chronicle = [])
    (h : Reachable (fun event => event.isOrderly = true) start w) :
    w.Serial start.engine.store.tables := by
  induction h with
  | start =>
    refine ⟨_, ?_, Tables.Trails.refl (Store.sound_tables h0.coherent.engine.catalog)⟩
    rw [hempty]
    rfl
  | step event hr ha hs ih => exact serial_step (accounted_of_reachable h0 hr) ih ha hs

end World
end PageStore
