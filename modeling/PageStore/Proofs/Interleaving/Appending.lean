import PageStore.Proofs.Interleaving.Reading

/-!
# Whoever holds the first page keeps others from appending

An insert goes through its table from the first page on, and locks each page exclusively
before it asks for the next one. So by the time it asks for the page after the last one, it
owns every page that is there. A transaction that holds the first page, in whatever mode,
therefore keeps all others from adding pages, although it has no lock on the page count.

A table without pages has no first page to hold. Then nothing keeps others away.

Results:
* `lined_step`, `lined_of_reachable`: an insert under way owns all pages before the one
  that it asks for.
* `pages_step`: a table keeps its length while its first page is held.
* `still_of_reachable`: what a transaction holds of a table stays, and so does the length
  of the table, as long as the transaction neither ends nor changes the table itself.
-/
namespace PageStore

/-- An insert into the table, or a delete from it. -/
def Operation.Alters (operation : Operation) (table : TableId) : Prop :=
  match operation with
  | .lock .. | .fetch .. => False
  | .insert u _ => u = table
  | .delete record => record.map (·.page.table) = some table
  | .insertInto file _ | .deleteFrom file _ => file.id = table

instance (operation : Operation) (table : TableId) : Decidable (operation.Alters table) := by
  unfold Operation.Alters
  split <;> exact inferInstance

/-- By this event `t` neither ends nor starts to change the table. -/
def Event.Refrains (t : TxnId) (table : TableId) : Event → Prop
  | .start u _ operation => u = t → ¬operation.Alters table
  | .keep u | .drop u => u ≠ t
  | _ => True

instance (t : TxnId) (table : TableId) : DecidablePred (Event.Refrains t table) := fun event => by
  unfold Event.Refrains
  split <;> exact inferInstance

namespace Engine

variable {e e' : Engine} {t : TxnId} {p : PageId} {mode : LockMode} {purpose : Purpose}
  {a : Advance}

/-- An insert that has seen the pages before `page` asks for none beyond it. -/
theorem nextPlace_page {job : Placement} {page count : Nat} {r : LockRequest Purpose}
    (h : progressOf t (HeapFile.nextPlace job page count) = .next r) :
    r.page.table = job.file.id ∧ r.page.index ≤ page := by
  unfold HeapFile.nextPlace at h
  split at h
  · cases h
    exact ⟨rfl, Nat.le_refl page⟩
  · next hn =>
    cases h
    exact ⟨rfl, Nat.le_of_not_lt hn⟩

/-- An insert begins with the first page, if there is one. -/
theorem begin_insert {table : TableId} {tuple : Tuple} (hc : e.store.catalog.Sound)
    (h : e.begin (.insert table tuple) = .ask p mode purpose) : p.table = table ∧ p.index = 0 := by
  unfold begin at h
  dsimp only at h
  split at h
  · cases h
  · next m hm =>
    have hid := hc.id _ _ (Catalog.lookup_eq_ok.1 hm)
    unfold HeapFile.beginInsert at h
    split at h
    · split at h
      · cases h
      · unfold HeapFile.nextPlace at h
        split at h
        · cases h
          exact ⟨hid, rfl⟩
        · next count _ hn =>
          cases h
          exact ⟨hid, Nat.eq_zero_of_not_pos hn⟩
    · cases h

/-- Only an append after the last page makes a table longer. -/
theorem Served.pages (h : Served e t p purpose e' a) (hc : e.store.catalog.Sound)
    (hr : LockRequest.Proper ⟨t, p, mode, purpose⟩ e.store) :
    (∀ u, e'.store.pages u = e.store.pages u) ∨
      (∃ job, purpose = .append job) ∧ p.index = e.store.pages p.table ∧
        ∀ u, u ≠ p.table → e'.store.pages u = e.store.pages u := by
  have stowed : ∀ {m : Mount} {job : Placement} {filled : Page} {r : RecordId},
      e.store.catalog[p.table]? = some m → job.tuple.Sound →
      (Page.empty p m.file.layout m.file.pageSize).insert job.tuple = .ok (filled, r) →
      ∀ u, u ≠ p.table →
        (e.stow m (firstImage m.file p filled)).store.pages u = e.store.pages u := by
    intro m job filled r hm hj hf u hu
    obtain ⟨-, hid, hs, -, hsize⟩ := new_page hj hf
    refine (Store.pages_put hc (hid.symm ▸ hm) hs hsize u).trans (if_neg ?_)
    rw [hid]
    exact hu
  cases h with
  | held => exact .inl fun _ => rfl
  | failed h => exact .inl fun u => by rw [h.store]
  | fetched h => exact .inl fun u => by rw [h.store]
  | passed h => exact .inl fun u => by rw [h.store]
  | changed h _ _ _ hn => exact .inl fun u => by rw [hn.store, h.store]
  | overtaken => exact .inl fun _ => rfl
  | stranded hm hj hi hf => exact .inr ⟨⟨_, rfl⟩, hi, stowed hm hr.1.tuple hf⟩
  | appended hm hj hi hx hf hn =>
    refine .inr ⟨⟨_, rfl⟩, hi, fun u hu => ?_⟩
    rw [hn.store]
    exact stowed hm hr.1.tuple hf u hu

end Engine

namespace World

/-- Inserts under way own all pages of their tables before the one that they ask for. -/
structure Lined (w : World) : Prop where
  tasked : w.Tasked
  behind : ∀ (t : TxnId) (a : Activity) (table : TableId) (tuple : Tuple), w.active[t]? = some a →
    a.operation = .insert table tuple → a.request.page.table = table ∧
      ∀ i < a.request.page.index, w.engine.pool.locks.Owns t ⟨table, i⟩

variable {w w' : World} {t u : TxnId} {table : TableId} {p : PageId} {a : Activity} {event : Event}

/-! ## Inserts lock as they go -/

/-- What a busy transaction owns, no step takes away. -/
theorem owns_step (hw : w.Coherent) (hs : w.step event = some w') (hbusy : w.active[t]? = some a)
    (h : w.engine.pool.locks.Owns t p) : w'.engine.pool.locks.Owns t p := by
  have hsafe := hw.engine.locks
  have hother : ∀ {u : TxnId}, w.active[u]? = none → t ≠ u := by
    rintro u hidle rfl
    rw [hbusy] at hidle
    cases hidle
  cases happens hs with
  | idle => exact h
  | begun => exact h
  | @turned u which b hb =>
    rw [engine_turned]
    have hrequest := h.request b.ticket b.request which
    rcases turn_served hw hb which with ⟨advance, -, -, hserved⟩ | ⟨-, -, hturn⟩
    · rw [hserved.locks]
      exact hrequest
    · rw [hturn.rules.locks]
      exact hrequest
  | @kept u hidle hok =>
    obtain ⟨e1, hf, -, -, he⟩ := Engine.keepChanges_of_ok hw.engine hok
    dsimp only
    rw [he]
    have hl := hf.rules.locks
    exact LockTable.Owns.releaseAll (hl ▸ hsafe) (hl ▸ h) (hother hidle)
  | @broken u x hx =>
    obtain ⟨-, e1, hf, -, ⟨hok, -⟩ | ⟨-, he⟩⟩ := Engine.keepChanges_spec hw.engine u
    · rw [hx] at hok
      cases hok
    · dsimp only
      rw [he, hf.rules.locks]
      exact h
  | @dropped u hidle =>
    obtain ⟨-, e1, hr, -, he⟩ := Engine.dropChanges_spec hw.engine u
    dsimp only
    rw [he]
    have hl := hr.reload.rules.locks
    exact LockTable.Owns.releaseAll (hl ▸ hsafe) (hl ▸ h) (hother hidle)
  | flushed ps =>
    dsimp only
    rw [(Engine.flushEach_spec ps hw.engine.toBacked).2.1.rules.locks]
    exact h
  | @discarded q =>
    dsimp only
    rcases (Engine.discard_spec hw.engine.toBacked q).2 with he | ⟨e1, hf, hturn, -⟩
    · rw [he]
      exact h
    · rw [hturn.rules.locks, hf.rules.locks]
      exact h
  | failing => exact h
  | latching => exact h

/-- The next request of an insert is for a page before which it has locked everything. -/
theorem lined_next (hw : w.Lined) (ha : w.active[t]? = some a) {which : Turn}
    {r : LockRequest Purpose}
    (hn : (w.engine.turn a.ticket a.request which).2 = .next r) {tuple : Tuple}
    (ho : a.operation = .insert table tuple) :
    r.page.table = table ∧ ∀ i < r.page.index,
      (w.engine.turn a.ticket a.request which).1.pool.locks.Owns t ⟨table, i⟩ := by
  obtain ⟨htable, hbehind⟩ := hw.behind t a table tuple ha ho
  have hproper := (hw.tasked.coherent.active t a ha).2
  obtain ⟨advance, hnext, hown, hserved⟩ := served_of_next hw.tasked.coherent ha hn
  have hstill : ∀ i < a.request.page.index, (w.granted a which).pool.locks.Owns t ⟨table, i⟩ :=
    fun i hi => (hbehind i hi).request a.ticket a.request which
  rw [hserved.locks]
  generalize (w.engine.turn a.ticket a.request which).1 = e' at hserved
  generalize hpurpose : a.request.purpose = purpose at hserved
  have hmade : a.request = ⟨a.request.txn, a.request.page, a.request.mode, purpose⟩ := by
    rw [← hpurpose]
  rw [hmade] at hproper
  cases hserved with
  | passed =>
    obtain ⟨-, hjob, hx⟩ := hproper
    obtain ⟨hrtable, hle⟩ := Engine.nextPlace_page hnext
    refine ⟨hrtable.trans (hjob.symm.trans htable), fun i hi => ?_⟩
    rcases Nat.lt_or_eq_of_le (Nat.le_of_lt_succ (Nat.lt_of_lt_of_le hi hle)) with hlt | rfl
    · exact hstill i hlt
    · rw [← htable]
      exact hown hx
  | overtaken =>
    obtain ⟨-, hjob, -⟩ := hproper
    obtain ⟨hrtable, hle⟩ := Engine.nextPlace_page hnext
    exact ⟨hrtable.trans (hjob.symm.trans htable),
      fun i hi => hstill i (Nat.lt_of_lt_of_le hi hle)⟩
  | _ => cases hnext

theorem lined_step (hw : w.Lined) (hs : w.step event = some w') : w'.Lined := by
  have hc := hw.tasked.coherent
  -- whoever was busy before, with the same request
  have held : ∀ {u : TxnId} {b b' : Activity} {table : TableId} {tuple : Tuple},
      w.active[u]? = some b' → b'.operation = b.operation → b'.request = b.request →
      b.operation = .insert table tuple → b.request.page.table = table ∧
        ∀ i < b.request.page.index, w'.engine.pool.locks.Owns u ⟨table, i⟩ := by
    intro u b b' table tuple hb hoperation hrequest ho
    obtain ⟨htable, hbehind⟩ := hw.behind u b' table tuple hb (hoperation.trans ho)
    rw [← hrequest]
    exact ⟨htable, fun i hi => owns_step hc hs hb (hbehind i hi)⟩
  refine ⟨tasked_step hw.tasked hs, fun u b table tuple hu ho => ?_⟩
  cases happens hs with
  | @begun v ticket operation q mode purpose hidle hproper hb =>
    dsimp only at hu
    rw [getElem?_active_insert] at hu
    split at hu
    · cases hu
      obtain rfl : operation = .insert table tuple := ho
      obtain ⟨htable, hindex⟩ := Engine.begin_insert hc.engine.catalog hb
      refine ⟨htable, fun i hi => ?_⟩
      rw [hindex] at hi
      exact absurd hi (Nat.not_lt_zero i)
    · exact held hu rfl rfl ho
  | @turned v which a ha =>
    rcases active_turned ha hu with ⟨b', hb', hoperation, hrequest⟩ | ⟨rfl, hn, hoperation⟩
    · exact held hb' hoperation hrequest ho
    · rw [engine_turned]
      exact lined_next hw ha hn (hoperation.symm.trans ho)
  | _ => exact held hu rfl rfl ho

theorem lined_of_reachable {allowed : Event → Prop} {start : World} (h0 : start.Lined)
    (h : Reachable allowed start w) : w.Lined := by
  induction h with
  | start => exact h0
  | step event _ _ hs ih => exact lined_step ih hs

theorem lined_fresh {store : Store} (hs : store.catalog.Sound) {capacity : Nat}
    {policy : DeadlockPolicy} {pool : Pool} (hp : Pool.new capacity policy = .ok pool) :
    (fresh store pool).Lined :=
  ⟨tasked_fresh hs hp, fun t a table tuple h => by simp [fresh] at h⟩

/-! ## A table whose first page is held -/

/-- A delete makes one request, for the page of its record. -/
theorem makes_delete {record : Option RecordId} {r : LockRequest Purpose}
    (h : (Operation.delete record).Makes r) : ∃ d, record = some d ∧ r.purpose = .remove d := by
  unfold Operation.Makes at h
  split at h
  · cases h
  · cases h
  · obtain ⟨table, h⟩ := h
    cases h
  · obtain ⟨table, h⟩ := h
    cases h
  · next d hpurpose =>
    cases h
    exact ⟨d, rfl, hpurpose⟩

/-- What changes a page is an insert into its table or a delete from it. -/
theorem Lined.alters_of_change (hw : w.Lined) (ha : w.active[t]? = some a) {change : Change}
    (hchange : a.operation.change? = some change) : a.operation.Alters a.request.page.table := by
  have hmakes := hw.tasked.active t a ha
  have hproper := (hw.tasked.coherent.active t a ha).2
  cases ho : a.operation with
  | insert table tuple => exact (hw.behind t a table tuple ha ho).1.symm
  | delete record =>
    rw [ho] at hmakes
    obtain ⟨d, rfl, hpurpose⟩ := makes_delete hmakes
    rw [LockRequest.Proper, hpurpose] at hproper
    rw [hproper.1]
    rfl
  | _ =>
    rw [ho] at hchange
    cases hchange

/-- The operation of `t`, if it has one under way, does not change the table. -/
def Refrains (w : World) (t : TxnId) (table : TableId) : Prop :=
  ∀ a, w.active[t]? = some a → ¬a.operation.Alters table

theorem refrains_step (hr : w.Refrains t table) (he : event.Refrains t table)
    (hs : w.step event = some w') : w'.Refrains t table := by
  intro b hb
  cases happens hs with
  | begun hidle hproper hbegin =>
    dsimp only at hb
    rw [getElem?_active_insert] at hb
    split at hb
    · next htu =>
      cases hb
      exact he htu.symm
    · exact hr b hb
  | turned ha =>
    rcases active_turned ha hb with ⟨b', hb', hoperation, -⟩ | ⟨rfl, -, hoperation⟩
    · rw [← hoperation]
      exact hr b' hb'
    · rw [hoperation]
      exact hr _ ha
  | _ => exact hr b hb

/-- Nobody else can append, for want of the first page. -/
theorem pages_step (hw : w.Lined) (hr : w.Refrains t table)
    (hh : w.engine.pool.locks.holds t ⟨table, 0⟩ = true) (hpos : 0 < w.engine.store.pages table)
    (hs : w.step event = some w') : w'.engine.store.pages table = w.engine.store.pages table := by
  have hc := hw.tasked.coherent
  cases happens hs with
  | idle => rfl
  | begun => rfl
  | @turned u which a ha =>
    rw [engine_turned]
    rcases turn_served hc ha which with ⟨advance, -, -, hserved⟩ | ⟨-, -, hturn⟩
    · rcases hserved.pages hc.engine.catalog (hc.active u a ha).2 with
        hsame | ⟨⟨job, hjob⟩, hindex, hother⟩
      · exact hsame table
      · refine hother table ?_
        rintro rfl
        have hmakes := hw.tasked.active u a ha
        rw [Operation.Makes, hjob] at hmakes
        obtain ⟨table', hinsert⟩ := hmakes
        obtain ⟨htable, hbehind⟩ := hw.behind u a table' _ ha hinsert
        subst htable
        have howns := hbehind 0 (Nat.lt_of_lt_of_eq hpos hindex.symm)
        obtain rfl : t = u := howns.eq_of_holds hc.engine.locks hh
        refine hr a ha ?_
        rw [hinsert]
        rfl
    · rw [hturn.store]
      rfl
  | @kept u =>
    obtain ⟨e1, locks, hf, -, he⟩ := Engine.keepChanges_flushed hc.engine u
    dsimp only
    rw [he]
    exact hf.pages table
  | @broken u =>
    obtain ⟨e1, locks, hf, -, he⟩ := Engine.keepChanges_flushed hc.engine u
    dsimp only
    rw [he]
    exact hf.pages table
  | dropped =>
    dsimp only
    rw [Engine.store_dropChanges]
  | flushed ps => exact (Engine.flushEach_spec ps hc.engine.toBacked).2.1.pages table
  | @discarded q =>
    dsimp only
    rcases (Engine.discard_spec hc.engine.toBacked q).2 with he | ⟨e1, hf, hturn, -⟩
    · rw [he]
    · rw [hturn.store, hf.pages]
  | failing => exact (Store.sameFiles_withFaults _ _ _).pages table
  | latching => rfl

/-- Pages of the table that `t` holds show to it what they showed. -/
theorem steady_step (hw : w.Lined) (hr : w.Refrains t table) (he : event.Refrains t table)
    (hs : w.step event = some w') (hp : p.table = table) :
    Engine.Steady w.engine w'.engine t p := by
  have hc := hw.tasked.coherent
  cases happens hs with
  | idle => exact .refl _ t p
  | begun => exact .refl _ t p
  | @turned u which a ha =>
    rw [engine_turned]
    have hrequest := Engine.steady_request w.engine a.ticket a.request which t p
    have hgranted := hc.engine.request a.ticket a.request which
    rcases turn_served hc ha which with ⟨advance, -, hown, hserved⟩ | ⟨-, -, hturn⟩
    · rcases hserved.steady hgranted (hc.active u a ha).2 hown (t := t) (p := p) with
        hsteady | ⟨hpage, rfl, page, -, hadvance⟩
      · exact hrequest.trans hsteady
      · -- `t` would have to change the table itself
        obtain ⟨change, hchange⟩ := hserved.change hadvance (hw.tasked.active u a ha)
        have halters := hw.alters_of_change ha hchange
        rw [hpage, hp] at halters
        exact absurd halters (hr a ha)
    · exact hrequest.trans (hturn.steady hgranted)
  | @kept u => exact Engine.steady_keepChanges hc.engine fun _ => Ne.symm he
  | @broken u => exact Engine.steady_keepChanges hc.engine fun _ => Ne.symm he
  | @dropped u => exact Engine.steady_dropChanges hc.engine (Ne.symm he)
  | flushed ps => exact (Engine.flushEach_spec ps hc.engine.toBacked).2.1.steady
  | discarded => exact Engine.steady_discard hc.engine _
  | @failing u faults =>
    refine .of_content rfl ?_
    unfold Engine.content? Engine.visible?
    rw [(Store.sameFiles_withFaults w.engine.store u faults).page p]
  | latching => exact .of_content rfl rfl

/-- From `w` to `w'`, the pages of the table that `t` holds show what they showed; the table
keeps its file, and its length if the first page is one of them. -/
structure Still (t : TxnId) (table : TableId) (w w' : World) : Prop where
  steady : ∀ p, p.table = table → Engine.Steady w.engine w'.engine t p
  file : w'.engine.store.file? table = w.engine.store.file? table
  pages : w.engine.pool.locks.holds t ⟨table, 0⟩ = true → 0 < w.engine.store.pages table →
    w'.engine.store.pages table = w.engine.store.pages table

theorem Still.refl (t : TxnId) (table : TableId) (w : World) : Still t table w w :=
  ⟨fun p _ => .refl _ t p, rfl, fun _ _ => rfl⟩

theorem Still.trans {v : World} (h : Still t table w w') (h' : Still t table w' v) :
    Still t table w v := by
  refine ⟨fun p hp => (h.steady p hp).trans (h'.steady p hp), h'.file.trans h.file, ?_⟩
  intro hh hpos
  have hpages := h.pages hh hpos
  exact (h'.pages (h.steady _ rfl hh).1 (hpages ▸ hpos)).trans hpages

theorem Still.step (hw : w.Lined) (hr : w.Refrains t table) (he : event.Refrains t table)
    (hs : w.step event = some w') : Still t table w w' :=
  ⟨fun _ hp => steady_step hw hr he hs hp, (setup_step hw.tasked.coherent hs).2 table,
    fun hh hpos => pages_step hw hr hh hpos hs⟩

theorem still_of_reachable (hw : w.Lined) (hr : w.Refrains t table)
    (h : Reachable (Event.Refrains t table) w w') : w'.Refrains t table ∧ Still t table w w' := by
  induction h with
  | start => exact ⟨hr, .refl t table w⟩
  | step event h he hs ih =>
    have hlined := lined_of_reachable hw h
    exact ⟨refrains_step ih.1 he hs, ih.2.trans (.step hlined ih.1 he hs)⟩

end World
end PageStore
