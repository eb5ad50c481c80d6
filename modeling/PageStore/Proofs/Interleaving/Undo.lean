import PageStore.Proofs.Interleaving.Accounted
import PageStore.Proofs.Pool.FailedInsert

/-!
# Aborts take back what was changed, and nothing else

An abort reads the pages of its transaction again from storage. That is the
right content only if nothing of the transaction was stored meanwhile: its
account says so, since the edits start from what is stored.

Where two tables share a file, a commit for one of them changes what is stored of the
other, and an abort brings that to light.

Results:
* `abort_undoes`: after an abort, every page that the transaction changed shows
  what it showed before the first change, or nothing if it was new; every other
  page shows what it showed just before; and no page is dirty for the
  transaction. Failing reads make no difference.
* `exists_abort_astray`: what an abort may bring back where tables share a file.
-/
namespace PageStore.World

/-- What a page showed before the first change that `t` made to it since it
last ended; none if it made none, `some none` if there was no such page. -/
def original? (w : World) (t : TxnId) (p : PageId) : Option (Option Grid) :=
  PageStore.original? p (pending t w.chronicle)

variable {w w' : World} {t : TxnId}

theorem step_drop (h : w.step (.drop t) = some w') :
    w'.engine = (w.engine.dropChanges t).engine := by
  cases happens h with
  | dropped => rfl
  | flushed _ he => cases he
  | latching _ he => cases he

/-- The pages that an abort restores are those that its transaction edited. -/
theorem Accounted.mem_dirtyPages (hw : w.Accounted) {p : PageId} :
    p ∈ w.engine.pool.dirtyPages (· == t) ↔ p ∈ editedPages (pending t w.chronicle) := by
  rw [Pool.mem_dirtyPages]
  constructor
  · rintro ⟨page, u, hp, hd, hu⟩
    obtain rfl : u = t := by simpa using hu
    exact (hw.account u).dirty p page hp hd
  · intro hp
    obtain ⟨page, hpage, hd, -⟩ := (hw.account t).listed p hp
    exact ⟨page, t, hpage, hd, by simp⟩

/-- In every world that orderly events lead to from a new pool, whatever else
goes on and whether or not pages can be read: when `t` aborts, the pages it
changed show again what they showed before (an empty page if it was new), the
others stay as they are, and nothing is left dirty for `t`. -/
theorem abort_undoes {store : Store} (hs : store.catalog.Sound) (ho : store.Orderly) {capacity : Nat}
    {policy : DeadlockPolicy} {pool : Pool} (hp : Pool.new capacity policy = .ok pool)
    (hw : Reachable (fun event => event.isOrderly = true) (fresh store pool) w)
    (hstep : w.step (.drop t) = some w') :
    (∀ p before, w.original? t p = some before →
      w'.engine.content? p = some (before.getD (w.engine.store.blank p.table))) ∧
    (∀ p, w.original? t p = none → w'.engine.content? p = w.engine.content? p) ∧
    ∀ p page, w'.engine.pool.page? p = some page → page.dirtier ≠ some t := by
  have hacc := accounted_of_reachable (accounted_fresh hs ho hp) hw
  obtain ⟨-, e1, hr, hspot, he⟩ := Engine.dropChanges_spec hacc.coherent.engine t
  have hengine := (step_drop hstep).trans he
  have hcontent : ∀ p, w'.engine.content? p = e1.content? p := by
    intro p
    rw [hengine]
    rfl
  refine ⟨?_, ?_, ?_⟩
  · intro p before hbefore
    have hmem : p ∈ editedPages (pending t w.chronicle) := by
      by_contra hn
      rw [original?, original_eq_none.2 hn] at hbefore
      cases hbefore
    have hstored := original_eq (hacc.account t).lawful hbefore
    rw [hcontent, ← hstored, Engine.content?, Engine.visible?, hr.reload.store]
    rcases hr.listed p (hacc.mem_dirtyPages.2 hmem) with hn | hl
    · rw [hn]
      rfl
    · rw [hl]
      cases h : w.engine.store.page? p <;> rw [Store.contents, h] <;> rfl
  · intro p hnone
    have hmem : p ∉ w.engine.pool.dirtyPages (· == t) := by
      rw [hacc.mem_dirtyPages]
      exact original_eq_none.1 hnone
    rw [hcontent, Engine.content?, Engine.content?, Engine.visible?, Engine.visible?, hr.other p hmem,
      hr.reload.store]
  · intro p page hpage
    rw [hengine] at hpage
    exact hspot p page hpage

theorem orderly_sampleStore : sampleStore.Orderly := by
  refine ⟨?_, ?_⟩ <;> intro t m hm <;> rw [(mount_sampleStore hm).2] <;> rfl

/-- The second transaction replaces the committed row, adds a page, and aborts
while that page cannot be read. -/
theorem sample_abort_undoes :
    ∃ w w', (fresh sampleStore samplePool).run
        [.start 1 0 (.insert (.numbered 1) (sampleRow 5)), .turn 1 .first, .keep 1,
          .start 2 1 (.delete (some ⟨samplePage 0, 0⟩)), .turn 2 .first,
          .start 2 2 (.insert (.numbered 1) (sampleRow 6)), .turn 2 .first,
          .start 2 3 (.insert (.numbered 1) (sampleRow 7)), .turn 2 .first,
          .start 2 4 (.insert (.numbered 1) (sampleRow 8)), .turn 2 .first, .turn 2 .first,
          .fail (.numbered 1) ⟨false, [1]⟩] = some w ∧
      w.step (.drop 2) = some w' ∧
      w'.engine.content? (samplePage 0) = some [some [.int 5], none] ∧
      w'.engine.content? (samplePage 1) = some [none, none] := by
  have hrun : (((fresh sampleStore samplePool).run
      [.start 1 0 (.insert (.numbered 1) (sampleRow 5)), .turn 1 .first, .keep 1,
        .start 2 1 (.delete (some ⟨samplePage 0, 0⟩)), .turn 2 .first,
        .start 2 2 (.insert (.numbered 1) (sampleRow 6)), .turn 2 .first,
        .start 2 3 (.insert (.numbered 1) (sampleRow 7)), .turn 2 .first,
        .start 2 4 (.insert (.numbered 1) (sampleRow 8)), .turn 2 .first, .turn 2 .first,
        .fail (.numbered 1) ⟨false, [1]⟩]).map fun w =>
      (w.original? 2 (samplePage 0), w.original? 2 (samplePage 1),
        w.engine.store.blank (.numbered 1), (w.step (.drop 2)).isSome)) =
      some (some (some [some [.int 5], none]), some none, [none, none], true) := by rfl
  obtain ⟨w, hw, h⟩ := Option.map_eq_some_iff.1 hrun
  obtain ⟨h0, h⟩ := Prod.mk.inj h
  obtain ⟨h1, h⟩ := Prod.mk.inj h
  obtain ⟨hblank, h⟩ := Prod.mk.inj h
  obtain ⟨w', hw'⟩ := Option.isSome_iff_exists.1 h
  obtain ⟨hback, -, -⟩ := abort_undoes sound_sampleStore orderly_sampleStore
    (show Pool.new 2 .cycleDetection = .ok samplePool from rfl)
    (reachable_of_run _ .start (by decide) hw) hw'
  refine ⟨w, w', hw, hw', hback _ _ h0, ?_⟩
  rw [hback _ _ h1]
  exact congrArg some hblank

/-! ## Two tables in one file -/

/-- After an abort the pages that its transaction changed show what they showed before. -/
def AbortsUndo (start : World) : Prop :=
  ∀ {w w' : World} {t : TxnId}, Reachable (fun event => event.isOrderly = true) start w →
    w.step (.drop t) = some w' → ∀ p before, w.original? t p = some before →
      w'.engine.content? p = some (before.getD (w.engine.store.blank p.table))

theorem orderly_twinStore : Engine.twinStore.Orderly := by
  refine ⟨?_, ?_⟩ <;> intro t m hm <;>
    rcases Engine.mount_twinStore hm with ⟨-, rfl⟩ | ⟨-, rfl⟩ <;> rfl

/-- The first transaction deletes the row of the first table. The second one puts another in
its place by way of the second table, and commits; and that is what the first one finds in
storage when it aborts. -/
theorem exists_abort_astray :
    ∃ start : World, Pool.new 2 .cycleDetection = .ok start.engine.pool ∧
      start.engine.store.Orderly ∧ ¬AbortsUndo start := by
  refine ⟨fresh Engine.twinStore samplePool, rfl, orderly_twinStore, fun hundo => ?_⟩
  have hrun : ((fresh Engine.twinStore samplePool).run
      [.start 1 0 (.delete (some ⟨⟨.numbered 1, 0⟩, 0⟩)), .turn 1 .first,
        .start 2 1 (.delete (some ⟨⟨.numbered 2, 0⟩, 0⟩)), .turn 2 .first,
        .start 2 2 (.insert (.numbered 2) (sampleRow 7)), .turn 2 .first, .keep 2]).bind (fun w =>
      (w.step (.drop 1)).map fun w' => decide
        (w.original? 1 (samplePage 0) = some (some [some [.int 5]]) ∧
          w'.engine.content? (samplePage 0) = some [some [.int 7]])) = some true := by
    decide +kernel
  obtain ⟨w, hw, h⟩ := Option.bind_eq_some_iff.1 hrun
  obtain ⟨w', hw', h⟩ := Option.map_eq_some_iff.1 h
  obtain ⟨hbefore, hafter⟩ := of_decide_eq_true h
  have hback := hundo (reachable_of_run _ .start (by decide) hw) hw' _ _ hbefore
  have hsame : some [some [Field.int 7]] = some [some [Field.int 5]] := hafter.symm.trans hback
  exact absurd hsame (by decide)

end PageStore.World
