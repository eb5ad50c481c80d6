import PageStore.Proofs.Locking.Deadlock

/-!
# A failing request leaves no trace

To see whether a wait would close a ring, a refused request is recorded to wait
and, if it would, the record of its transaction is taken back whole. That undoes
no more than was done as long as the transaction had no record before, and it has
none unless one of its requests sleeps: a record is made by a request that falls
asleep, and every way in which a request leaves its sleep removes it.

This needs nothing of the callers but that tickets are their own (`Ticketed`).
A transaction may have several requests asleep and may end in its sleep.

Results:
* `Recorded.step`, `recorded`: whoever is recorded to wait has a request asleep.
* `aborted_changes_nothing`: the request of somebody awake that fails at its first
  turn leaves locks, records and sleepers as they were.
-/
namespace PageStore.LockTable.Dispatch

variable {α : Type} {d : Dispatch α} {ticket k : Ticket} {r r' : LockRequest α} {turn : Turn}

/-- A request comes with a ticket that nobody sleeps under, and a later turn is that of
the request asleep under its ticket. -/
def Ticketed (d : Dispatch α) : Action α → Prop
  | .request ticket _ .first => d.table.sleepers[ticket]? = none
  | .request ticket r _ => d.table.sleepers[ticket]? = some r
  | .release _ _ => True
  | .releaseAll _ => True

theorem Patient.ticketed : ∀ {a : Action α}, Patient d a → Ticketed d a
  | .request _ _ .first, h => h.2
  | .request _ _ .woken, h => h
  | .release .., _ => trivial
  | .releaseAll _, _ => trivial

/-- Only its own turn concerns a ticket, and at a first turn nobody sleeps under it. -/
theorem Ticketed.ne_ticket (ha : Ticketed d (.request ticket r turn))
    (hk : d.table.sleepers[k]? = some r') (h : turn = .first ∨ r'.txn ≠ r.txn) : k ≠ ticket := by
  rintro rfl
  match turn, ha, h with
  | .first, ha, _ => exact Option.some_ne_none r' (hk.symm.trans ha)
  | .woken, ha, .inr hne => exact hne (congrArg LockRequest.txn (Option.some.inj (hk.symm.trans ha)))
  | .last, ha, .inr hne => exact hne (congrArg LockRequest.txn (Option.some.inj (hk.symm.trans ha)))

/-- Whoever is recorded to wait has a request asleep. -/
structure Recorded (d : Dispatch α) : Prop where
  policy : d.table.policy = .cycleDetection
  asleep : ∀ a b, d.table.waits.Edge a b → ∃ (k : Ticket) (r : LockRequest α),
    d.table.sleepers[k]? = some r ∧ r.txn = a

theorem Linked.recorded (h : Linked d) : Recorded d := ⟨h.policy, h.asleep⟩

theorem recorded_start : Recorded (start : Dispatch α) := by
  refine ⟨rfl, fun a b h => ?_⟩
  simp [start, new, WaitGraph.Edge] at h

/-- Who is awake is not recorded to wait. -/
theorem Recorded.waitsFor_eq_nil (h : Recorded d) {t : TxnId} (hi : d.table.Idle t) :
    d.table.waitsFor t = [] := by
  refine List.eq_nil_iff_forall_not_mem.2 fun u hu => ?_
  obtain ⟨k, r, hk, hr⟩ := h.asleep t u (WaitGraph.mem_waitsFor.1 hu)
  exact hi k r hk hr

theorem Recorded.request (h : Recorded d) (ha : Ticketed d (.request ticket r turn)) :
    Recorded (d.step (.request ticket r turn)) := by
  refine ⟨(policy_request ..).trans h.policy, ?_⟩
  have hstep : (d.step (.request ticket r turn)).table = (d.table.request ticket r turn).1 := rfl
  rw [hstep]
  rcases request_cycleDetection h.policy ticket r turn with ⟨e, -, hq⟩ | ⟨bs, -, ⟨-, hq⟩ | ⟨-, hq⟩⟩
  · rw [hq]
    intro a b he
    -- only a turn after a sleep withdraws the record of its transaction
    have hold : (turn = .first ∨ a ≠ r.txn) ∧ d.table.waits.Edge a b := by
      simp only [grant, h.policy, and_true] at he
      split at he
      · exact (WaitGraph.edge_removeWaiter.1 he).imp_left .inr
      · next hfirst => exact ⟨.inl (not_ne_iff.1 hfirst), he⟩
    obtain ⟨k, r', hk, rfl⟩ := h.asleep a b hold.2
    refine ⟨k, r', ?_, rfl⟩
    exact (getElem?_sleepers_erase ..).trans ((if_neg (ha.ne_ticket hk hold.1)).trans hk)
  · rw [hq]
    intro a b he
    by_cases hat : a = r.txn
    · exact ⟨ticket, r, (getElem?_sleepers_insert ..).trans (if_pos rfl), hat.symm⟩
    · rw [WaitGraph.edge_setWaits, if_neg hat] at he
      obtain ⟨k, r', hk, rfl⟩ := h.asleep a b he
      refine ⟨k, r', ?_, rfl⟩
      exact (getElem?_sleepers_insert ..).trans ((if_neg (ha.ne_ticket hk (.inr hat))).trans hk)
  · rw [hq]
    intro a b he
    obtain ⟨hat, he⟩ := WaitGraph.edge_removeWaiter.1 he
    rw [WaitGraph.edge_setWaits, if_neg hat] at he
    obtain ⟨k, r', hk, rfl⟩ := h.asleep a b he
    refine ⟨k, r', ?_, rfl⟩
    exact (getElem?_sleepers_erase ..).trans ((if_neg (ha.ne_ticket hk (.inr hat))).trans hk)

theorem Recorded.step (h : Recorded d) : ∀ {a : Action α}, Ticketed d a → Recorded (d.step a)
  | .request .., ha => h.request ha
  | .release _ _, _ => ⟨h.policy, h.asleep⟩
  | .releaseAll _, _ => ⟨h.policy, fun a b he => h.asleep a b (WaitGraph.edge_removeTxn.1 he).2.2⟩

theorem recorded (hd : Reachable Ticketed d) : Recorded d := by
  induction hd with
  | start => exact recorded_start
  | step _ ha ih => exact ih.step ha

/-- If the first turn of a request fails whose transaction has no other request
asleep, then every page is locked as before by whom it was locked before, everybody
holds the pages and is recorded to wait for the transactions as before, and the same
requests sleep. -/
theorem aborted_changes_nothing (hd : Reachable Ticketed d) (hi : d.table.Idle r.txn)
    (hnew : d.table.sleepers[ticket]? = none)
    (ha : (d.table.request ticket r .first).2 = .aborted) :
    let after := (d.table.request ticket r .first).1
    (∀ p, after.modeOf? p = d.table.modeOf? p ∧ after.holders p = d.table.holders p) ∧
    (∀ t, after.lockedPages t = d.table.lockedPages t) ∧
    (∀ t, after.waitsFor t = d.table.waitsFor t) ∧
    ∀ k : Ticket, after.sleepers[k]? = d.table.sleepers[k]? := by
  have h := recorded hd
  rcases request_cycleDetection h.policy ticket r .first with ⟨e, -, hq⟩ | ⟨bs, -, ⟨-, hq⟩ | ⟨-, hq⟩⟩
  · rw [hq] at ha
    cases ha
  · rw [hq] at ha
    cases ha
  · rw [hq]
    refine ⟨fun p => ⟨rfl, rfl⟩, fun t => rfl, fun t => ?_, fun k => ?_⟩
    · refine (WaitGraph.waitsFor_removeWaiter ..).trans ?_
      split
      · next hat => rw [hat, h.waitsFor_eq_nil hi]
      · next hat => exact WaitGraph.waitsFor_setWaits_of_ne _ bs hat
    · refine (getElem?_sleepers_erase ..).trans ?_
      split
      · next hkt => rw [hkt, hnew]
      · rfl

/-- After `upgraders` the second reader asks to become the writer as well. -/
theorem aborted_changes_nothing_upgraders :
    let d := upgraders.foldl step start
    let r : LockRequest Unit := ⟨2, ⟨.numbered 1, 0⟩, .exclusive, ()⟩
    (d.table.request 3 r .first).2 = .aborted ∧
      let after := (d.table.request 3 r .first).1
      (∀ p, after.modeOf? p = d.table.modeOf? p ∧ after.holders p = d.table.holders p) ∧
      (∀ t, after.lockedPages t = d.table.lockedPages t) ∧
      (∀ t, after.waitsFor t = d.table.waitsFor t) ∧
      ∀ k : Ticket, after.sleepers[k]? = d.table.sleepers[k]? := by
  intro d r
  have hd : Reachable Ticketed d :=
    (Reachable.start.run upgraders (by decide +kernel)).mono fun _ _ h => Patient.ticketed h
  have hv : (d.table.request 3 r .first).2 = .aborted := by decide +kernel
  exact ⟨hv, aborted_changes_nothing hd (by decide +kernel) (by decide +kernel) hv⟩

end PageStore.LockTable.Dispatch
