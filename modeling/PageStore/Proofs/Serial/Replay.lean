import PageStore.Proofs.Pool.FailedInsert
import PageStore.Proofs.Serial.Alone

/-!
# Committed transactions, made again one after another

What is committed can be made again by the engine itself, on a new pool over
the storage from which everything began: transaction after transaction in the
order of their commits, each operation undisturbed. Every one of them succeeds
on the page on which it succeeded before, and the rows stored in the end are
the same.

Results:
* `redo_isOk`: edits that plain tables can make one after another are made by
  the engine, as long as its cache is large enough for each transaction.
* `redoable_of_reachable`: it is, for transactions that did commit.
* `committed_rows_serial`: what is stored in any reachable world is what its
  committed transactions make one after another.
* `exists_rows_astray`: where tables share a file, it may be what no such order makes.
-/
namespace PageStore

namespace Tables

variable {s s' : Tables}

/-- Changes take no pages away. -/
theorem pages_change {change : Change} (h : s.change? change = some s') (u : TableId) :
    s.pages u ≤ s'.pages u := by
  obtain ⟨old, new, -, -, rfl⟩ := change_eq_some.1 h
  simp only [set]
  split
  · exact Nat.le_max_left _ _
  · exact Nat.le_refl _

theorem edit_eq_some {edit : Edit} :
    s.edit? edit = some s' ↔ s.target edit.change = edit.page ∧ s.change? edit.change = some s' := by
  unfold edit?
  split
  · next h => simp [h]
  · next h => simp [h]

theorem pages_edits {edits : List Edit} (h : s.edits? edits = some s') (u : TableId) :
    s.pages u ≤ s'.pages u := by
  induction edits generalizing s with
  | nil =>
    cases h
    exact Nat.le_refl _
  | cons edit edits ih =>
    obtain ⟨s1, h1, h2⟩ := Option.bind_eq_some_iff.1 h
    exact Nat.le_trans (pages_change (edit_eq_some.1 h1).2 u) (ih h2)

theorem pages_execute {txns : List (TxnId × List Edit)} (h : s.execute? txns = some s') (u : TableId) :
    s.pages u ≤ s'.pages u := by
  induction txns generalizing s with
  | nil =>
    cases h
    exact Nat.le_refl _
  | cons txn txns ih =>
    obtain ⟨s1, h1, h2⟩ := Option.bind_eq_some_iff.1 h
    exact Nat.le_trans (pages_edits h1 u) (ih h2)

end Tables

theorem Roomy.of_append {capacity : Nat} {later earlier : List Edit}
    (h : Roomy capacity (later ++ earlier)) : Roomy capacity earlier := by
  induction later with
  | nil => exact h
  | cons edit later ih => exact ih h.1

namespace Engine

/-- Makes edits of a transaction again, each by an undisturbed operation that
must succeed on the page of the edit. -/
def redoEdits? (e : Engine) (t : TxnId) : List Edit → Option Engine
  | [] => some e
  | edit :: edits =>
    match e.perform 0 t edit.change.operation with
    | (e, .done (.ok (.changed page))) => if page.id = edit.page then e.redoEdits? t edits else none
    | _ => none

/-- Makes transactions again, and commits each of them. -/
def redo? (e : Engine) : List (TxnId × List Edit) → Option Engine
  | [] => some e
  | (t, edits) :: txns =>
    match e.redoEdits? t edits with
    | some e =>
      match (e.commit t).result with
      | .ok _ => (e.commit t).engine.redo? txns
      | .error _ => none
    | none => none

variable {e e' : Engine} {t : TxnId} {s : Tables}

/-- The edits of one transaction, after earlier ones that it has made. -/
theorem redo_edits {edits : List Edit} {earlier : List Edit}
    (h : Alone e t (editedPages earlier).toFinset) (hs : e.tables.edits? edits = some s)
    (hproper : ∀ edit ∈ edits, edit.change.Proper e.store)
    (hroomy : Roomy e.pool.capacity (edits.reverse ++ earlier))
    (hmax : ∀ u, s.pages u ≤ HeapFile.maxPages) :
    ∃ e', e.redoEdits? t edits = some e' ∧ e'.tables = s ∧ (∃ dirty, Alone e' t dirty) ∧
      e'.pool.capacity = e.pool.capacity ∧ e'.store.catalog = e.store.catalog := by
  induction edits generalizing e earlier with
  | nil =>
    cases hs
    exact ⟨e, rfl, rfl, ⟨_, h⟩, rfl, rfl⟩
  | cons edit edits ih =>
    obtain ⟨s1, h1, hs1⟩ := Option.bind_eq_some_iff.1 hs
    obtain ⟨htarget, hchange⟩ := Tables.edit_eq_some.1 h1
    rw [List.reverse_cons, List.append_assoc, List.singleton_append] at hroomy
    have hroom : ∀ q, (Edit.mk edit.change (e.tables.target edit.change) none).Reads q →
        (insert q (editedPages earlier).toFinset).card ≤ e.pool.capacity := by
      intro q hq
      rw [htarget] at hq
      exact hroomy.of_append.2 q hq
    have hpages : ∀ u, e.store.pages u ≤ HeapFile.maxPages := by
      intro u
      have hle : e.store.pages u ≤ s.pages u := Tables.pages_edits hs u
      exact Nat.le_trans hle (hmax u)
    obtain ⟨e1, page, hperform, hmade⟩ :=
      h.perform (hproper edit (by simp)) ⟨s1, hchange⟩ hroom hpages 0
    have htables : e1.tables = s1 := Option.some.inj (hmade.tables.symm.trans hchange)
    have hpage : page.id = edit.page := hmade.target.trans htarget
    have halone : Alone e1 t (editedPages (edit :: earlier)).toFinset := by
      rw [editedPages, List.map_cons, List.toFinset_cons, ← hpage]
      exact hmade.alone
    obtain ⟨e', hredo, hs', hlast, hcap, hcat⟩ := ih halone (htables ▸ hs1)
      (fun edit' he => (hproper edit' (by simp [he])).of_files (Store.file_of_catalog hmade.catalog))
      (by rw [hmade.capacity]; exact hroomy)
    refine ⟨e', ?_, hs', hlast, hcap.trans hmade.capacity, hcat.trans hmade.catalog⟩
    rw [redoEdits?, hperform]
    dsimp only
    rw [if_pos hpage]
    exact hredo

/-- The cache has room for a transaction, and its changes may be asked for. -/
def Redoable (e : Engine) (edits : List Edit) : Prop :=
  Roomy e.pool.capacity edits.reverse ∧ ∀ edit ∈ edits, edit.change.Proper e.store

theorem Redoable.congr {edits : List Edit} (h : Redoable e edits)
    (hcap : e'.pool.capacity = e.pool.capacity) (hfile : ∀ u, e'.store.file? u = e.store.file? u) :
    Redoable e' edits := by
  refine ⟨hcap ▸ h.1, ?_⟩
  intro edit he
  exact (h.2 edit he).of_files hfile

/-- An engine at which nobody is at work makes transactions one after another as
plain tables do. -/
theorem redo_isOk {txns : List (TxnId × List Edit)} (h : ∀ t, Alone e t ∅)
    (hstored : e.store.tables = e.tables) (hs : e.tables.execute? txns = some s)
    (hredoable : ∀ txn ∈ txns, Redoable e txn.2) (hmax : ∀ u, s.pages u ≤ HeapFile.maxPages) :
    ∃ e', e.redo? txns = some e' ∧ e'.store.tables = s ∧ e'.store.catalog = e.store.catalog := by
  induction txns generalizing e with
  | nil =>
    cases hs
    exact ⟨e, rfl, hstored, rfl⟩
  | cons txn txns ih =>
    obtain ⟨t, edits⟩ := txn
    obtain ⟨s1, h1, hs1⟩ := Option.bind_eq_some_iff.1 hs
    obtain ⟨hroomy, hproper⟩ := hredoable (t, edits) (by simp)
    have hidle : Alone e t (editedPages []).toFinset := h t
    obtain ⟨e1, hredo, htables, ⟨dirty, h2⟩, hcap, hcat⟩ := redo_edits hidle h1 hproper
      (by rw [List.append_nil]; exact hroomy) fun u => Nat.le_trans (Tables.pages_execute hs1 u) (hmax u)
    obtain ⟨hok, halone, htables2, hstored2, hcap2, hcat2⟩ := h2.commit
    obtain ⟨e', hrest, hs', hcat'⟩ := ih halone (hstored2.trans htables2.symm)
      (by rw [htables2, htables]; exact hs1) fun txn he =>
        (hredoable txn (by simp [he])).congr (hcap2.trans hcap)
          (Store.file_of_catalog (hcat2.trans hcat))
    refine ⟨e', ?_, hs', hcat'.trans (hcat2.trans hcat)⟩
    rw [redo?, hredo]
    dsimp only
    rw [hok]
    exact hrest

theorem alone_new {store : Store} (hs : store.catalog.Sound) (hr : store.Reliable) {capacity : Nat}
    {policy : DeadlockPolicy} {pool : Pool} (hp : Pool.new capacity policy = .ok pool) (t : TxnId) :
    Alone ⟨store, pool⟩ t ∅ := by
  have hc := (World.coherent_fresh hs hp).engine
  unfold Pool.new at hp
  split at hp
  · cases hp
  · cases hp
    refine ⟨hc, hr, rfl, ?_, ?_⟩
    · intro u p hu
      simp [LockTable.holds, LockTable.holdersSet, LockTable.new] at hu
    · intro p _ page hpage
      simp [Pool.page?] at hpage

/-- What readers of a new pool find is what is stored. -/
theorem tables_new (store : Store) {capacity : Nat} {policy : DeadlockPolicy} {pool : Pool}
    (hp : Pool.new capacity policy = .ok pool) : (Engine.mk store pool).tables = store.tables := by
  unfold Pool.new at hp
  split at hp
  · cases hp
  · cases hp
    have hcontent : ∀ p, content? ⟨store, ⟨capacity, .new policy, ∅, .empty, .zero, ∅, 0, []⟩⟩ p =
        store.contents p := by
      intro p
      rw [content?, visible_of_not_cached]
      · rfl
      · simp [Pool.page?]
    rw [tables, Store.tables, funext hcontent]

end Engine

namespace World

variable {w w' : World} {t : TxnId}

/-- A step commits nothing, or what one transaction has changed so far. -/
theorem committed_step {event : Event} (hs : w.step event = some w') :
    committed w'.chronicle = committed w.chronicle ∨
      ∃ t, committed w'.chronicle = committed w.chronicle ++ [(t, (pending t w.chronicle).reverse)] := by
  cases happens hs with
  | turned => exact .inl (committed_turned w _ _ _ _)
  | @kept t =>
    refine .inr ⟨t, ?_⟩
    dsimp only
    rw [committed, if_pos rfl]
  | _ => exact .inl rfl

/-- Every transaction that has committed can be made again. -/
theorem redoable_of_reachable {start : World} (h0 : start.Accounted) (hempty : start.chronicle = [])
    (h : Reachable (fun event => event.isOrderly = true) start w) :
    ∀ txn ∈ committed w.chronicle, Engine.Redoable start.engine txn.2 := by
  induction h with
  | start =>
    rw [hempty]
    intro txn htxn
    simp [committed] at htxn
  | @step w w' event hr ha hs ih =>
    rcases committed_step hs with he | ⟨t, he⟩ <;> rw [he]
    · exact ih
    · intro txn htxn
      rcases List.mem_append.1 htxn with htxn | htxn
      · exact ih txn htxn
      · obtain ⟨hcap, hfile⟩ := setup_of_reachable h0.coherent hr
        have hacc := (accounted_of_reachable h0 hr).account t
        rw [List.mem_singleton.1 htxn]
        refine ⟨?_, ?_⟩
        · rw [List.reverse_reverse, ← hcap]
          exact hacc.roomy
        · intro edit hedit
          exact (hacc.proper edit (List.mem_reverse.1 hedit)).of_files fun u => (hfile u).symm

/-- In every world that orderly events lead to from a new pool, whatever the
order in which transactions take their turns: the rows in storage are those
that the changes of the committed transactions make of the first tables, one
transaction after another in the order of the commits. Operations of a new pool
over the first storage, undisturbed and in that order, store the same rows as
well, unless a table has outgrown its page numbers. -/
theorem committed_rows_serial {store : Store} (hs : store.catalog.Sound) (hr : store.Reliable)
    {capacity : Nat} {policy : DeadlockPolicy} {pool : Pool}
    (hp : Pool.new capacity policy = .ok pool)
    (hw : Reachable (fun event => event.isOrderly = true) (fresh store pool) w) :
    (∃ s, store.tables.execute? (committed w.chronicle) = some s ∧
      ∀ p slot, (w.engine.store.row? p slot).map Tuple.fields = s.row? p slot) ∧
    ((∀ t, w.engine.store.pages t ≤ HeapFile.maxPages) →
      ∃ e, (Engine.mk store pool).redo? (committed w.chronicle) = some e ∧
        ∀ p slot, e.store.row? p slot = w.engine.store.row? p slot) := by
  have h0 := accounted_fresh hs hr.orderly hp
  have hacc := accounted_of_reachable h0 hw
  obtain ⟨s, hexec, htrails⟩ := serial_of_reachable h0 rfl hw
  have hrow : ∀ p slot, (w.engine.store.row? p slot).map Tuple.fields = s.row? p slot := by
    intro p slot
    rw [Store.fields_row]
    exact htrails.row (Store.sound_tables hacc.coherent.engine.catalog) p slot
  refine ⟨⟨s, hexec, hrow⟩, ?_⟩
  intro hmax
  obtain ⟨e, hredo, htables, hcat⟩ := Engine.redo_isOk (Engine.alone_new hs hr hp)
    (Engine.tables_new store hp).symm (by rw [Engine.tables_new store hp]; exact hexec)
    (redoable_of_reachable h0 rfl hw) fun u => Nat.le_trans (htrails.pages u) (hmax u)
  refine ⟨e, hredo, ?_⟩
  intro p slot
  have hsound : e.store.catalog.Sound := by
    rw [hcat]
    exact hs
  refine Store.row_congr hacc.coherent.engine.catalog hsound ?_ ?_
  · intro u
    rw [(setup_of_reachable h0.coherent hw).2 u]
    exact Store.file_of_catalog hcat u
  · rw [hrow, Store.fields_row, ← htables]
    rfl

theorem reliable_sampleStore : sampleStore.Reliable := by
  refine ⟨?_, ?_⟩ <;> intro t m hm <;> rw [(mount_sampleStore hm).2]
  rfl

/-- The second transaction waits for the first one to commit, adds a page, and
aborts; the third one puts its row where the second had put one. -/
theorem sample_committed_rows_serial :
    ∃ w s e, (fresh sampleStore samplePool).run
        [.start 1 0 (.insert (.numbered 1) (sampleRow 5)), .turn 1 .first,
          .start 2 1 (.insert (.numbered 1) (sampleRow 6)), .turn 2 .first, .keep 1, .turn 2 .woken,
          .start 2 2 (.insert (.numbered 1) (sampleRow 7)), .turn 2 .first, .turn 2 .first, .drop 2,
          .start 3 3 (.insert (.numbered 1) (sampleRow 8)), .turn 3 .first, .keep 3] = some w ∧
      (committed w.chronicle).map Prod.fst = [1, 3] ∧
      sampleStore.tables.execute? (committed w.chronicle) = some s ∧
      s.row? (samplePage 0) 1 = some [.int 8] ∧
      (Engine.mk sampleStore samplePool).redo? (committed w.chronicle) = some e ∧
      (e.store.row? (samplePage 0) 1).map Tuple.fields = some [.int 8] := by
  have hrun : (((fresh sampleStore samplePool).run
      [.start 1 0 (.insert (.numbered 1) (sampleRow 5)), .turn 1 .first,
        .start 2 1 (.insert (.numbered 1) (sampleRow 6)), .turn 2 .first, .keep 1, .turn 2 .woken,
        .start 2 2 (.insert (.numbered 1) (sampleRow 7)), .turn 2 .first, .turn 2 .first, .drop 2,
        .start 3 3 (.insert (.numbered 1) (sampleRow 8)), .turn 3 .first, .keep 3]).map fun w =>
      ((committed w.chronicle).map Prod.fst,
        (w.engine.store.row? (samplePage 0) 1).map Tuple.fields, w.engine.store.pages (.numbered 1))) =
      some ([1, 3], some [.int 8], 2) := by decide +kernel
  obtain ⟨w, hw, h⟩ := Option.map_eq_some_iff.1 hrun
  obtain ⟨hcommitted, h⟩ := Prod.mk.inj h
  obtain ⟨hrow, hpages⟩ := Prod.mk.inj h
  have hreach : Reachable (fun event => event.isOrderly = true) (fresh sampleStore samplePool) w :=
    reachable_of_run _ .start (by decide) hw
  obtain ⟨⟨s, hs, hrows⟩, hredo⟩ := committed_rows_serial sound_sampleStore reliable_sampleStore
    (show Pool.new 2 .cycleDetection = .ok samplePool from rfl) hreach
  have hfiles := setup_of_reachable (coherent_fresh sound_sampleStore
    (show Pool.new 2 .cycleDetection = .ok samplePool from rfl)) hreach
  have hmax : ∀ t, w.engine.store.pages t ≤ HeapFile.maxPages := by
    intro t
    cases hm : w.engine.store.catalog[t]? with
    | none =>
      rw [Store.pages, hm]
      exact Nat.zero_le _
    | some m =>
      have hfile := hfiles.2 t
      rw [Store.file?, hm] at hfile
      obtain ⟨m', hm', -⟩ := Option.map_eq_some_iff.1 hfile.symm
      rw [(mount_sampleStore hm').1, hpages]
      decide
  obtain ⟨e, he, hsame⟩ := hredo hmax
  refine ⟨w, s, e, hw, hcommitted, hs, ?_, he, ?_⟩
  · rw [← hrows]
    exact hrow
  · rw [hsame]
    exact hrow

/-! ## Two tables in one file -/

/-- No transaction has an operation under way, or a change that it neither kept nor took back. -/
def Settled (w : World) : Prop := ∀ t, w.active[t]? = none ∧ pending t w.chronicle = []

/-- Once all transactions have ended, the stored rows are those that the changes of the committed
ones make of the first tables, one transaction after another. -/
def RowsSerial (store : Store) (pool : Pool) : Prop :=
  ∀ {w : World}, Reachable (fun event => event.isOrderly = true) (fresh store pool) w → w.Settled →
    ∃ s, store.tables.execute? (committed w.chronicle) = some s ∧
      ∀ p slot, (w.engine.store.row? p slot).map Tuple.fields = s.row? p slot

/-- They are those that operations of a new pool store, undisturbed and in that order. -/
def RowsRedone (store : Store) (pool : Pool) : Prop :=
  ∀ {w : World}, Reachable (fun event => event.isOrderly = true) (fresh store pool) w → w.Settled →
    ∃ e, (Engine.mk store pool).redo? (committed w.chronicle) = some e ∧
      ∀ p slot, e.store.row? p slot = w.engine.store.row? p slot

theorem reliable_twinStore : Engine.twinStore.Reliable := by
  refine ⟨?_, ?_⟩ <;> intro t m hm <;>
    rcases Engine.mount_twinStore hm with ⟨-, rfl⟩ | ⟨-, rfl⟩ <;> rfl

/-- The first transaction deletes the row of the only page, through the first table. Before it
commits, the second one reads the page as one of the second table, finds it full, and puts its
row on a new page. So the row is gone from both tables, and the other one stands where it would
not stand if the second transaction had come after the first. -/
theorem exists_rows_astray :
    ∃ store pool, Pool.new 2 .cycleDetection = .ok pool ∧ store.Reliable ∧
      ¬RowsSerial store pool ∧ ¬RowsRedone store pool := by
  have hrun : ((fresh Engine.twinStore samplePool).run
      [.start 1 0 (.delete (some ⟨⟨.numbered 1, 0⟩, 0⟩)), .turn 1 .first,
        .start 2 1 (.insert (.numbered 2) (sampleRow 6)), .turn 2 .first, .turn 2 .first,
        .keep 1, .keep 2]).map (fun w => decide ((w.active.isEmpty = true ∧ w.chronicle =
          [.ended 2 true, .ended 1 true,
            .changed 2 (.insert (.numbered 2) (sampleRow 6)) ⟨.numbered 2, 1⟩ none,
            .changed 1 (.delete ⟨⟨.numbered 1, 0⟩, 0⟩) ⟨.numbered 1, 0⟩ (some [some [.int 5]])]) ∧
        (w.engine.store.row? ⟨.numbered 2, 0⟩ 0).map Tuple.fields = none ∧
        (Engine.twinStore.tables.execute? (committed w.chronicle)).map
          (fun s => s.row? ⟨.numbered 2, 0⟩ 0) = some (some [.int 5]) ∧
        ((Engine.mk Engine.twinStore samplePool).redo? (committed w.chronicle)).isSome = false)) =
      some true := by decide +kernel
  obtain ⟨w, hw, h⟩ := Option.map_eq_some_iff.1 hrun
  obtain ⟨⟨hidle, hchronicle⟩, hrow, hmade, hredo⟩ := of_decide_eq_true h
  have hreach : Reachable (fun event => event.isOrderly = true) (fresh Engine.twinStore samplePool) w :=
    reachable_of_run _ .start (by decide) hw
  have hsettled : w.Settled := by
    refine fun t => ⟨Std.TreeMap.getElem?_of_isEmpty hidle, ?_⟩
    rw [hchronicle]
    by_cases h1 : 1 = t <;> by_cases h2 : 2 = t <;> simp [pending, h1, h2]
  refine ⟨Engine.twinStore, samplePool, rfl, reliable_twinStore, fun hserial => ?_, fun hredone => ?_⟩
  · obtain ⟨s, hs, hrows⟩ := hserial hreach hsettled
    rw [hs] at hmade
    have hsame := (hrows ⟨.numbered 2, 0⟩ 0).symm.trans hrow
    cases hsame.symm.trans (Option.some.inj hmade)
  · obtain ⟨e, he, -⟩ := hredone hreach hsettled
    rw [he] at hredo
    cases hredo

end World
end PageStore
