import PageStore.Proofs.Pool.Collecting
import PageStore.Proofs.Pool.Completion

/-!
# What a delete does

A delete asks for one page and frees one slot of it. Whatever can go wrong goes wrong before
that: the record id is missing or names an unknown table, the lock is refused, the page
cannot be read or finds no room, the slot is not there or is free already. Until then, all
that happens to the cache is that clean pages come and go.

A clean page that goes is seen as it is stored afterwards. That is how it was seen before, as
long as nobody lets go of its changes without storing them and no two tables share a file;
otherwise its cached copy may have been out of date.

Others may act between the turns of a delete that sleeps, so what it did is what happened in
its own turns.

Results:
* `turn_removal`: a turn of a delete leaves all pages alone, or it ends the delete and leaves
  all pages but one alone.
* `Pursuit.deletes`: what the turns of a whole delete come to.
* `slotEmpty_again`: the same delete once more finds its slot empty.
* `delete_is_exact`: deletes in any engine that can be reached.
* `exists_delete_seen`: a delete that is seen on a page of another table.
-/
namespace PageStore

/-- The table is registered, with a file of its own id. -/
def Store.Lists (s : Store) (table : TableId) : Prop := ∃ f, s.file? table = some f ∧ f.id = table

theorem Store.Lists.mono {s s' : Store} {table : TableId} (h : s.Lists table) (hk : s.Keeps s') :
    s'.Lists table := by
  obtain ⟨f, hf, hid⟩ := h
  exact ⟨f, hk table f hf, hid⟩

/-- A slot that is free already is not freed again. -/
theorem Page.delete_of_free {page : Page} {r : RecordId} (hid : page.id = r.page)
    (hfree : page.slots[r.slot]? = some none) :
    page.delete (some r) = .error (.slotEmpty r.page r.slot) := by
  unfold delete
  dsimp only
  rw [if_neg (not_not_intro hid.symm), hfree, hid]

namespace Engine

variable {start e e' : Engine} {t : TxnId} {r : RecordId} {p : PageId} {progress : Progress}
  {moves : List (Engine × Engine)} {result : Except Error Outcome}

/-! ## Operations while others act -/

/-- A request from a state on, until its operation is over. Others act in between, in whatever
way they like. `moves` are the states before and after each turn of the operation itself. -/
inductive Pursuit : Engine → LockRequest Purpose → List (Engine × Engine) → Except Error Outcome → Prop
  | ended {e e' : Engine} {request : LockRequest Purpose} {ticket : Ticket} {which : Turn}
      {result : Except Error Outcome} (h : e.turn ticket request which = (e', .done result)) :
      Pursuit e request [(e, e')] result
  | slept {e e' : Engine} {request : LockRequest Purpose} {ticket : Ticket} {which : Turn}
      {moves : List (Engine × Engine)} {result : Except Error Outcome}
      (h : e.turn ticket request which = (e', .asleep)) (rest : Pursuit e' request moves result) :
      Pursuit e request ((e, e') :: moves) result
  | went {e e' : Engine} {request next : LockRequest Purpose} {ticket : Ticket} {which : Turn}
      {moves : List (Engine × Engine)} {result : Except Error Outcome}
      (h : e.turn ticket request which = (e', .next next)) (rest : Pursuit e' next moves result) :
      Pursuit e request ((e, e') :: moves) result
  | meanwhile {e : Engine} {request : LockRequest Purpose} {moves : List (Engine × Engine)}
      {result : Except Error Outcome} (a : Act) (ha : a.Proper e.store)
      (rest : Pursuit (e.act a) request moves result) : Pursuit e request moves result

/-- A call of an operation: it is over at once, or its first request is pursued. -/
inductive Calls (e : Engine) (t : TxnId) (op : Operation) :
    List (Engine × Engine) → Except Error Outcome → Prop
  | atOnce {result : Except Error Outcome} (h : progressOf t (e.begin op) = .done result) :
      Calls e t op [] result
  | waited {request : LockRequest Purpose} {moves : List (Engine × Engine)}
      {result : Except Error Outcome} (h : progressOf t (e.begin op) = .next request)
      (rest : Pursuit e request moves result) : Calls e t op moves result

/-- An operation that nobody disturbs is a call of it. -/
theorem calls_perform {ticket : Ticket} {op : Operation}
    (h : e.perform ticket t op = (e', .done result)) :
    ∃ moves, Calls e t op moves result ∧ Joined e moves e' := by
  unfold perform at h
  split at h
  · next hbegin =>
    cases h
    exact ⟨[], .atOnce hbegin, rfl⟩
  · cases h
  · next request hbegin =>
    obtain ⟨moves, hrest, hjoined⟩ := joined_settle (motive := (Pursuit · · · result))
      .ended .slept .went h
    exact ⟨moves, .waited hbegin hrest, hjoined⟩

/-! ## Pages that are left alone -/

/-- Who made the cached copy of the page dirty. -/
def dirtier? (e : Engine) (p : PageId) : Option TxnId := (e.pool.page? p).bind Page.dirtier

/-- Orderly acts have led there, and no two tables share a file. -/
def InOrder (start e : Engine) : Prop := start.store.catalog.Sound ∧ Operated start e

/-- The page is dirty for whom it was, and seen as it was; but if it was clean, and in no order,
it may be seen as it is stored. -/
structure Unchanged (start e e' : Engine) (p : PageId) : Prop where
  dirtier : e'.dirtier? p = e.dirtier? p
  content : e'.content? p = e.content? p ∨ e.pool.IsClean p ∧ e'.content? p = e.store.contents p
  kept : InOrder start e → e'.content? p = e.content? p

/-- Nothing in storage changed, and no page. -/
structure Untouched (start e e' : Engine) : Prop where
  store : e'.store = e.store
  page : ∀ p, Unchanged start e e' p

/-- `t` has freed the slot, which had a row, and that is all; the page is dirty for `t` now,
which holds it exclusively. -/
structure Deleted (start : Engine) (t : TxnId) (r : RecordId) (e e' : Engine) : Prop where
  store : e'.store = e.store
  other : ∀ p, p ≠ r.page → Unchanged start e e' p
  slot : ∃ g row, e.content? r.page = some g ∧ g[r.slot]? = some (some row) ∧
    e'.content? r.page = some (g.set r.slot none)
  cached : ∃ page, e'.pool.page? r.page = some page ∧ page.dirtier = some t
  owned : e'.pool.locks.Owns t r.page

/-- What `Turnover` says of one page, and `Entered` of the others. -/
def Turned (e e' : Engine) (p : PageId) : Prop :=
  e'.pool.page? p = e.pool.page? p ∨
    e.pool.IsClean p ∧ (e'.pool.page? p = none ∨ e'.pool.page? p = e.store.page? p)

theorem dirtier_of_clean (h : e.pool.IsClean p) : e.dirtier? p = none :=
  Option.bind_eq_none_iff.2 h

theorem unchanged_of_turned (hb : InOrder start e → Backed e) (hs : e'.store = e.store)
    (h : Turned e e' p) : Unchanged start e e' p := by
  have hcontent := content_or_stored hs h
  refine ⟨?_, hcontent, fun hin => ?_⟩
  · rcases h with hsame | ⟨hclean, hnone | hstored⟩
    · rw [dirtier?, dirtier?, hsame]
    · rw [dirtier_of_clean hclean, dirtier?, hnone]
      rfl
    · rw [dirtier_of_clean hclean, dirtier?, hstored]
      exact Option.bind_eq_none_iff.2 fun _ => Store.clean_of_stored
  · rcases hcontent with hsame | ⟨hclean, hstored⟩
    · exact hsame
    · exact hstored.trans ((hb hin).content_of_clean hclean).symm

theorem untouched_of_turnover {locks : LockTable Purpose} (hb : InOrder start e → Backed e)
    (h : Turnover (e.withLocks locks) e') : Untouched start e e' :=
  ⟨h.store, fun p => unchanged_of_turned hb h.store (h.page p)⟩

/-- Pages that made room for another are clean ones. -/
theorem turned_of_entered {e1 : Engine} {page : Page} {q : PageId} (h : Turnover e e1)
    (hn : Entered e1 e' p page) (hq : q ≠ p) : Turned e e' q := by
  rcases hn.other q hq with hsame | ⟨hclean, hnone⟩
  · have hpage := h.page q
    rwa [← hsame] at hpage
  · refine .inr ⟨fun page hpage => ?_, .inl hnone⟩
    rcases h.page q with hsame | ⟨hclean', -⟩
    · exact hclean page (hsame.trans hpage)
    · exact hclean' page hpage

/-! ## Turns -/

/-- The request of a delete. -/
def removal (t : TxnId) (r : RecordId) : LockRequest Purpose := ⟨t, r.page, .exclusive, .remove r⟩

/-- What comes of it once the page is locked. -/
theorem Served.removal {locks : LockTable Purpose} {a : Advance}
    (h : Served (e.withLocks locks) t r.page (.remove r) e' a) (hb : InOrder start e → Backed e)
    (hown : locks.Owns t r.page) :
    Untouched start e e' ∧ (∃ x, a = .done (.error x)) ∨
      Deleted start t r e e' ∧ ∃ outcome, a = .done (.ok outcome) := by
  cases h with
  | failed hturn => exact .inl ⟨untouched_of_turnover hb hturn, _, rfl⟩
  | @changed _ e1 _ old new hturn _ hp hd hn =>
    refine .inr ⟨?_, _, rfl⟩
    have hstore : e'.store = e.store := hn.store.trans hturn.store
    cases hd with
    | remove hd =>
      obtain ⟨_, hr, -, ⟨row, hrow⟩, -⟩ := Page.delete_eq_ok hd
      cases hr
      obtain ⟨_, hr, hgrid⟩ := Page.grid_delete hd
      cases hr
      have hslot : old.grid[r.slot]? = some (some row.fields) := by
        rw [Page.getElem?_grid, hrow]
        rfl
      have hfreed : e'.content? r.page = some (old.grid.set r.slot none) := by
        rw [content_of_cached hn.cached, Page.grid_withDirtier, hgrid]
      have howned : e'.pool.locks.Owns t r.page := by
        rw [hn.rules.locks, hturn.rules.locks]
        exact hown
      have hother : ∀ q, q ≠ r.page → Unchanged start e e' q := fun q hq =>
        unchanged_of_turned hb hstore (turned_of_entered (e := e.withLocks locks) hturn hn hq)
      exact ⟨hstore, hother, ⟨old.grid, row.fields, congrArg (Option.map Page.grid) hp, hslot,
        hfreed⟩, ⟨_, hn.cached, rfl⟩, howned⟩

/-- A turn of a delete leaves all pages alone unless it succeeds. -/
theorem turn_removal {ticket : Ticket} {which : Turn} (ht : e.pool.Tidy)
    (hb : InOrder start e → Backed e) (h : e.turn ticket (removal t r) which = (e', progress)) :
    Untouched start e e' ∧ (progress = .asleep ∨ ∃ x, progress = .done (.error x)) ∨
      Deleted start t r e e' ∧ ∃ outcome, progress = .done (.ok outcome) := by
  rcases turn_cases e ticket (removal t r) which with ⟨hg, he⟩ | ⟨-, he⟩ | ⟨-, he⟩
  · obtain ⟨rfl, rfl⟩ := Prod.mk.inj (h.symm.trans he)
    have htidy : (e.withLocks (e.pool.locks.request ticket (removal t r) which).1).pool.Tidy :=
      ⟨ht.size, ht.order⟩
    have hserved : Served _ t r.page (.remove r) _ _ := serveRemove_spec htidy
    rcases hserved.removal hb (LockTable.owns_of_granted hg rfl) with ⟨hpages, x, hx⟩ | ⟨hdone, o, ho⟩
    · exact .inl ⟨hpages, .inr ⟨x, congrArg (progressOf t) hx⟩⟩
    · exact .inr ⟨hdone, o, congrArg (progressOf t) ho⟩
  · obtain ⟨rfl, rfl⟩ := Prod.mk.inj (h.symm.trans he)
    exact .inl ⟨untouched_of_turnover hb (.refl _), .inl rfl⟩
  · obtain ⟨rfl, rfl⟩ := Prod.mk.inj (h.symm.trans he)
    exact .inl ⟨⟨rfl, fun p => unchanged_of_turned hb rfl (.inl rfl)⟩, .inr ⟨_, rfl⟩⟩

/-! ## Once more -/

/-- A delete fails at once, or asks for its page, the table of which is registered then. -/
theorem begin_delete_cases (e : Engine) (record : Option RecordId) :
    (∃ x, e.begin (.delete record) = .done (.error x)) ∨
      ∃ r, record = some r ∧ e.begin (.delete record) = .ask r.page .exclusive (.remove r) ∧
        e.store.Lists r.page.table := by
  cases record with
  | none => exact .inl ⟨_, rfl⟩
  | some r =>
    unfold begin
    dsimp only
    split
    · exact .inl ⟨_, rfl⟩
    · next m hm =>
      rw [Catalog.lookup_eq_ok] at hm
      unfold HeapFile.beginDelete HeapFile.checkOwner
      dsimp only
      split
      · exact .inl ⟨_, rfl⟩
      · next ho =>
        split at ho
        · next htable => exact .inr ⟨r, rfl, rfl, m.file, by rw [Store.file?, hm]; rfl, htable.symm⟩
        · cases ho

theorem begin_delete (h : e.store.Lists r.page.table) :
    e.begin (.delete (some r)) = .ask r.page .exclusive (.remove r) := by
  obtain ⟨f, hf, hid⟩ := h
  obtain ⟨m, hm, rfl⟩ := Option.map_eq_some_iff.1 hf
  unfold begin
  dsimp only
  rw [Catalog.lookup_eq_ok.2 hm]
  unfold HeapFile.beginDelete HeapFile.checkOwner
  dsimp only
  rw [if_pos hid.symm]

theorem serveRemove_of_free {f : Frame} (hf : e.pool.cached[r.page]? = some f) (hid : f.page.id = r.page)
    (hfree : f.page.slots[r.slot]? = some none) :
    (e.serveRemove t r.page r).2 = .done (.error (.slotEmpty r.page r.slot)) := by
  have hload : (e.load r.page).2 = .ok f := by
    unfold load Pool.hit
    rw [hf]
    rfl
  unfold serveRemove
  split
  · next hx =>
    rw [hx] at hload
    cases hload
  · next hok =>
    rw [hok] at hload
    cases hload
    rw [Page.delete_of_free hid hfree]

/-- The page that a row was deleted from is cached, with a free slot. -/
theorem Deleted.cached_free (h : Deleted start t r e e') (he : e'.Sound) :
    ∃ f, e'.pool.cached[r.page]? = some f ∧ f.page.id = r.page ∧ f.page.slots[r.slot]? = some none := by
  obtain ⟨page, hcached, -⟩ := h.cached
  obtain ⟨g, row, -, hrow, hfreed⟩ := h.slot
  obtain ⟨hlt, -⟩ := List.getElem?_eq_some_iff.1 hrow
  obtain ⟨f, hf, rfl⟩ := Pool.page?_eq_some.1 hcached
  have hgrid : f.page.grid[r.slot]? = some none := by
    rw [Option.some.inj ((content_of_cached hcached).symm.trans hfreed), List.getElem?_set_self hlt]
  rw [Page.getElem?_grid] at hgrid
  obtain ⟨slot, hslot, hnone⟩ := Option.map_eq_some_iff.1 hgrid
  exact ⟨f, hf, (he.page _ _ hcached).1, Option.map_eq_none_iff.1 hnone ▸ hslot⟩

/-- Whoever has deleted a record still holds its page, so the same delete goes straight to it. -/
theorem slotEmpty_again (hi : e'.Intact) (hl : e'.store.Lists r.page.table)
    (h : Deleted start t r e e') (ticket : Ticket) :
    (e'.perform ticket t (.delete (some r))).2 = .done (.error (.slotEmpty r.page r.slot)) := by
  obtain ⟨f, hf, hid, hfree⟩ := h.cached_free hi.toSound
  have hgranted := LockTable.granted_of_alone hi.locks
    (fun u hu => h.owned.eq_of_holds hi.locks hu) ticket .exclusive (.remove r) .first
  obtain ⟨e'', hturn⟩ : ∃ e'', e'.turn ticket (removal t r) .first =
      (e'', .done (.error (.slotEmpty r.page r.slot))) := by
    rcases turn_cases e' ticket (removal t r) .first with ⟨-, he⟩ | ⟨hn, -⟩ | ⟨hn, -⟩
    · have hfails := serveRemove_of_free (t := t)
        (e := e'.withLocks (e'.pool.locks.request ticket (removal t r) .first).1) hf hid hfree
      exact ⟨_, he.trans (Prod.ext rfl (congrArg (progressOf t) hfails))⟩
    · cases hgranted.symm.trans hn
    · cases hgranted.symm.trans hn
  have halone : e'.turnAlone ticket (removal t r) .first =
      (e'', .done (.error (.slotEmpty r.page r.slot))) := by
    unfold turnAlone
    rw [hturn]
  unfold perform
  rw [begin_delete hl]
  exact congrArg Prod.snd (settle_of_turnAlone halone)

/-! ## Whole deletes -/

/-- What the turns of a delete come to. If it fails, all of them leave all pages alone; if it
succeeds, all but the last do, which frees the slot. The same delete once more finds it free. -/
def Exact (start : Engine) (t : TxnId) (record : Option RecordId) (moves : List (Engine × Engine)) :
    Except Error Outcome → Prop
  | .error _ => ∀ m ∈ moves, Untouched start m.1 m.2
  | .ok _ => ∃ r earlier before after, record = some r ∧ moves = earlier ++ [(before, after)] ∧
      (∀ m ∈ earlier, Untouched start m.1 m.2) ∧ Deleted start t r before after ∧
      ∀ ticket, (after.perform ticket t (.delete (some r))).2 =
        .done (.error (.slotEmpty r.page r.slot))

theorem Exact.cons {record : Option RecordId} (h : Exact start t record moves result)
    (hm : Untouched start e e') : Exact start t record ((e, e') :: moves) result := by
  cases result with
  | error => exact List.forall_mem_cons.2 ⟨hm, h⟩
  | ok =>
    obtain ⟨r, earlier, before, after, hr, rfl, hearlier, hlast⟩ := h
    exact ⟨r, (e, e') :: earlier, before, after, hr, rfl, List.forall_mem_cons.2 ⟨hm, hearlier⟩, hlast⟩

/-- The last turn of a delete that succeeds is the one that frees the slot. -/
theorem Exact.last {earlier : List (Engine × Engine)} {m : Engine × Engine} {outcome : Outcome}
    (h : Exact start t (some r) (earlier ++ [m]) (.ok outcome)) :
    (∀ m ∈ earlier, Untouched start m.1 m.2) ∧ Deleted start t r m.1 m.2 ∧
      ∀ ticket, (m.2.perform ticket t (.delete (some r))).2 =
        .done (.error (.slotEmpty r.page r.slot)) := by
  obtain ⟨_, earlier', before, after, hr, hmoves, hearlier, hdeleted, hagain⟩ := h
  cases hr
  obtain ⟨rfl, rfl⟩ := List.append_singleton_inj.1 hmoves
  exact ⟨hearlier, hdeleted, hagain⟩

/-- What holds between the turns of a delete. -/
structure Pending (r : RecordId) (e : Engine) : Prop where
  intact : e.Intact
  lists : e.store.Lists r.page.table

theorem Pending.act (h : Pending r e) {a : Act} (ha : a.Proper e.store) : Pending r (e.act a) :=
  ⟨h.intact.act ha, h.lists.mono (keeps_of_proper h.intact.tidy ha)⟩

theorem Pending.turn {ticket : Ticket} {which : Turn} (h : Pending r e)
    (hm : e.turn ticket (removal t r) which = (e', progress)) : Pending r e' := by
  have hact := h.act (a := .turn ticket (removal t r) which) trivial
  rwa [Engine.act, hm] at hact

theorem Pursuit.deletes (h : Pursuit e (removal t r) moves result) (hp : Pending r e)
    (hb : ∀ e, InOrder start e → Backed e) : Exact start t (some r) moves result := by
  generalize hr : removal t r = request at h
  induction h with
  | @ended e e' _ _ _ result h =>
    subst hr
    rcases turn_removal hp.intact.tidy (hb e) h with ⟨hpages, hn | ⟨x, hx⟩⟩ | ⟨hdone, o, ho⟩
    · cases hn
    · cases hx
      simpa [Exact] using hpages
    · cases ho
      have hafter := hp.turn h
      exact ⟨r, [], e, e', rfl, rfl, by simp, hdone, slotEmpty_again hafter.intact hafter.lists hdone⟩
  | @slept e e' _ _ _ _ _ h _ ih =>
    subst hr
    rcases turn_removal hp.intact.tidy (hb e) h with ⟨hpages, -⟩ | ⟨-, _, ho⟩
    · exact (ih (hp.turn h) rfl).cons hpages
    · cases ho
  | @went e e' _ _ _ _ _ _ h =>
    subst hr
    rcases turn_removal hp.intact.tidy (hb e) h with ⟨-, hn | ⟨_, hx⟩⟩ | ⟨-, _, ho⟩
    · cases hn
    · cases hx
    · cases ho
  | meanwhile a ha _ ih => exact ih (hp.act ha) hr

theorem Calls.deletes {record : Option RecordId} (h : Calls e t (.delete record) moves result)
    (hi : e.Intact) (hb : ∀ e, InOrder start e → Backed e) : Exact start t record moves result := by
  rcases begin_delete_cases e record with ⟨x, hbegin⟩ | ⟨r, rfl, hbegin, hl⟩
  · cases h with
    | atOnce h =>
      rw [hbegin] at h
      cases h
      exact fun m hm => by cases hm
    | waited h =>
      rw [hbegin] at h
      cases h
  · cases h with
    | atOnce h =>
      rw [hbegin] at h
      cases h
    | waited h rest =>
      rw [hbegin] at h
      cases h
      exact Pursuit.deletes rest ⟨hi, hl⟩ hb

/-- Whatever acts an engine has gone through since its cache was empty, and whatever others do
between the turns of a delete: if it fails, no turn of it changes storage, what is seen, or
which pages are dirty for whom. If it succeeds, the slot had a row, and all that its turns
have changed is that the slot is free and the page is cached and dirty for `t`; the same delete
once more fails then, for the slot is empty. What is seen of clean pages is the same only as long as
acts are orderly and no two tables share a file. A delete that nobody disturbs is such a call. -/
theorem delete_is_exact {store : Store} {capacity : Nat} {policy : DeadlockPolicy} {pool : Pool}
    (hp : Pool.new capacity policy = .ok pool) (he : Reached ⟨store, pool⟩ e)
    (record : Option RecordId) :
    (∀ moves result, Calls e t (.delete record) moves result →
      Exact ⟨store, pool⟩ t record moves result) ∧
    ∀ ticket e' result, e.perform ticket t (.delete record) = (e', .done result) →
      ∃ moves, Calls e t (.delete record) moves result ∧ Joined e moves e' := by
  have hi := intact_of_reached (intact_new store hp) he
  have hb : ∀ e, InOrder ⟨store, pool⟩ e → Backed e := fun _ hin =>
    backed_of_operated (backed_new hin.1 hp) hin.2
  exact ⟨fun _ _ h => h.deletes hi hb, fun _ _ _ h => calls_perform h⟩

theorem turn_turned {request : LockRequest Purpose}
    (h : (e.turn request.txn request .first).2 = progress) :
    e.turn request.txn request .first = (e.turned request, progress) := Prod.ext rfl h

/-- The row that transaction 1 has put on the last page. -/
def lastRow : RecordId := ⟨⟨.numbered 1, 2⟩, 0⟩

/-- Transaction 2 waits for the page of that row, to delete it. -/
def waitingEngine : Engine := filledEngine.turned (removal 2 lastRow)

/-- Transaction 1 has ended. -/
def endedEngine : Engine := waitingEngine.act (.keep 1)

/-- The row is deleted once its page is free. -/
theorem delete_is_exact_waitingEngine :
    let start : Engine := ⟨slimStore .extendEmpty, World.samplePool⟩
    let e' := endedEngine.turned (removal 2 lastRow)
    let moves := [(filledEngine, waitingEngine)] ++ [(endedEngine, e')]
    Pool.new 2 .cycleDetection = .ok start.pool ∧ Reached start filledEngine ∧
      (∃ outcome, Calls filledEngine 2 (.delete (some lastRow)) moves (.ok outcome)) ∧
      Untouched start filledEngine waitingEngine ∧ Deleted start 2 lastRow endedEngine e' ∧
      (e'.perform 2 2 (.delete (some lastRow))).2 =
        .done (.error (.slotEmpty ⟨.numbered 1, 2⟩ 0)) := by
  intro start e' moves
  have hreached : Reached start filledEngine := reached_of_operated operated_filledEngine
  have hbegin : progressOf 2 (filledEngine.begin (.delete (some lastRow))) =
      .next (removal 2 lastRow) := by decide +kernel
  have hsleeps : (filledEngine.turn 2 (removal 2 lastRow) .first).2 = .asleep := by decide +kernel
  have hdone : (endedEngine.turn 2 (removal 2 lastRow) .first).2 =
      .done (.ok (.changed ⟨lastRow.page, .ofTypes [.int], 9, [none], some 2⟩)) := by decide +kernel
  have hcall : Calls filledEngine 2 (.delete (some lastRow)) moves (.ok (.changed _)) :=
    .waited hbegin (.slept (turn_turned hsleeps)
      (.meanwhile (.keep 1) trivial (.ended (turn_turned hdone))))
  obtain ⟨hwaited, hdeleted, hagain⟩ := Exact.last ((delete_is_exact
    (show Pool.new 2 .cycleDetection = .ok World.samplePool from rfl) hreached _).1 _ _ hcall)
  exact ⟨rfl, hreached, ⟨_, hcall⟩, hwaited (filledEngine, waitingEngine) (List.mem_singleton.2 rfl),
    hdeleted, hagain 2⟩

/-! ## Tables that share a file -/

/-- A delete that succeeds changes no other row that is seen. -/
def SparesRows (start : Engine) : Prop :=
  ∀ {e : Engine} {t : TxnId} {r : RecordId} {moves : List (Engine × Engine)} {outcome : Outcome},
    Operated start e → Calls e t (.delete (some r)) moves (.ok outcome) →
    ∀ m ∈ moves, ∀ q, q ≠ r → m.2.visibleRow? q = m.1.visibleRow? q

/-- A delete that fails changes no row that is seen. -/
def FailsUnseen (start : Engine) : Prop :=
  ∀ {e : Engine} {t : TxnId} {r : RecordId} {moves : List (Engine × Engine)} {x : Error},
    Operated start e → Calls e t (.delete (some r)) moves (.error x) →
    ∀ m ∈ moves, ∀ q, m.2.visibleRow? q = m.1.visibleRow? q

/-- A call of a delete that is over after one turn. -/
theorem calls_removal (hbegin : progressOf t (e.begin (.delete (some r))) = .next (removal t r))
    (hturn : (e.turn t (removal t r) .first).2 = .done result) :
    Calls e t (.delete (some r)) [(e, e.turned (removal t r))] result :=
  .waited hbegin (.ended (turn_turned hturn))

/-- If two tables share a file, the page of a delete may take the place of one that went out of
date, whether the delete succeeds or not. -/
theorem exists_delete_seen : ∃ start : Engine, Pool.new 2 .cycleDetection = .ok start.pool ∧
    ¬SparesRows start ∧ ¬FailsUnseen start := by
  let page : PageId := ⟨.numbered 2, 1⟩
  refine ⟨⟨sharedStore, World.samplePool⟩, rfl, fun h => ?_, fun h => ?_⟩
  · have hturn : (sharedEngine.turn 3 (removal 3 ⟨page, 0⟩) .first).2 =
        .done (.ok (.changed ⟨page, .ofTypes [.int], 9, [none], some 3⟩)) := by decide +kernel
    have hsame := h operated_sharedEngine (calls_removal (by decide +kernel) hturn) _
      (List.mem_singleton.2 rfl) ⟨⟨.numbered 1, 0⟩, 0⟩ (by decide)
    exact absurd hsame (by decide +kernel)
  · have hturn : (sharedEngine.turn 3 (removal 3 ⟨page, 1⟩) .first).2 =
        .done (.error (.invalidArgument (.noSuchSlot page 1))) := by decide +kernel
    have hsame := h operated_sharedEngine (calls_removal (by decide +kernel) hturn) _
      (List.mem_singleton.2 rfl) ⟨⟨.numbered 1, 0⟩, 0⟩
    exact absurd hsame (by decide +kernel)

end Engine
end PageStore
