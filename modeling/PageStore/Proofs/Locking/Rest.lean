import PageStore.Proofs.Locking.Refusal

/-!
# The lock table between steps

When no woken request has its turn outstanding, the records tell the truth: the
requests that sleep are those that would be refused, and whoever is recorded to
wait has a request asleep on a page that all it waits for hold. So a path of
recorded waits can only end with somebody who is awake and holds the page that
the last waiter on the path sleeps on, and letting go of that page wakes it.

Results:
* `sleepers_refused_and_recorded`: sleepers would be refused and wait for holders
  of their page; nobody else waits.
* `waits_lead_to_awake`: the recorded waits are acyclic, and every path of them
  ends with somebody awake whose release wakes a sleeper.
-/
namespace PageStore.LockTable.Dispatch

variable {α : Type} {d : Dispatch α} {t u a b : TxnId}

/-- With no turn outstanding, a recorded wait is for a holder of the page that the
waiter sleeps on. -/
theorem Linked.trulyWaits (h : Linked d) (hw : d.woken = []) (he : d.table.waits.Edge a b) :
    TrulyWaits d.table a b := by
  obtain ⟨k, r, hk, rfl, hb⟩ := h.blockedBy hw he
  obtain ⟨-, -, -, hne, -⟩ := blocks_iff.1 hb
  exact ⟨k, r, hk, rfl, hb.mem_holders, hne⟩

/-- With no turn outstanding, who is not recorded to wait is awake. -/
theorem Linked.idle_of_no_edge (h : Linked d) (hw : d.woken = [])
    (hn : ∀ v, ¬d.table.waits.Edge u v) : d.table.Idle u := by
  rintro k r hk rfl
  obtain ⟨⟨b, hb⟩, -⟩ := h.waiting k r hk (by simp [hw])
  exact hn b hb

/-- With no turn outstanding, a path of recorded waits that starts with a sleeper
ends with somebody awake, and the last step of the path is a true wait. -/
theorem Linked.path_end (h : Linked d) (hw : d.woken = []) (ht : ¬d.table.Idle t)
    (hr : d.table.waits.Reaches t u) (hn : ∀ v, ¬d.table.waits.Edge u v) :
    d.table.Idle u ∧ ∃ s, TrulyWaits d.table s u := by
  have hu := h.idle_of_no_edge hw hn
  rcases Relation.ReflTransGen.cases_tail hr with rfl | ⟨s, -, he⟩
  · exact absurd hu ht
  · exact ⟨hu, s, h.trulyWaits hw he⟩

/-- A holder of the page that a request sleeps on has the page locked, and wakes
the request by letting go of it, alone or with all the others. -/
theorem Linked.wakes (h : Linked d) {ticket : Ticket} {r : LockRequest α}
    (hr : d.table.sleepers[ticket]? = some r) (hu : u ∈ d.table.holders r.page) :
    r.page ∈ d.table.lockedPages u ∧ (ticket, r) ∈ (d.table.release u r.page).2 ∧
      (ticket, r) ∈ (d.table.releaseAll u).2 := by
  have hlocked : r.page ∈ d.table.pagesSet u :=
    (h.safe.mirror u r.page).2 (LockTable.mem_holders.1 hu)
  refine ⟨LockTable.mem_lockedPages.2 hlocked, ?_, ?_⟩
  · show _ ∈ d.table.sleepersOn (· == r.page)
    exact mem_sleepersOn.2 ⟨hr, by simp⟩
  · exact mem_sleepersOn.2 ⟨hr, Std.TreeSet.contains_iff_mem.2 hlocked⟩

/-- A sleeping request that has no turn outstanding would be refused if it were
decided now, and its transaction is recorded to wait for somebody, and only for
holders of the page other than itself. Whoever has no request asleep is not
recorded to wait at all. -/
theorem sleepers_refused_and_recorded (hd : Reachable Patient d) :
    (∀ (ticket : Ticket) (r : LockRequest α), d.table.sleepers[ticket]? = some r →
      ticket ∉ d.woken →
      (∃ bs, LockEntry.decide d.table.entries[r.page]? r.txn r.mode = .refuse bs) ∧
      d.table.waitsFor r.txn ≠ [] ∧
      ∀ u ∈ d.table.waitsFor r.txn, u ∈ d.table.holders r.page ∧ u ≠ r.txn) ∧
    ∀ t, d.table.Idle t → d.table.waitsFor t = [] := by
  have h := linked hd
  refine ⟨fun ticket r hr hw => ?_, fun t ht => h.recorded.waitsFor_eq_nil ht⟩
  obtain ⟨⟨b, hb⟩, hall⟩ := h.waiting ticket r hr hw
  obtain ⟨bs, hrefused, -⟩ := hall b hb
  refine ⟨⟨bs, hrefused⟩, List.ne_nil_of_mem (WaitGraph.mem_waitsFor.2 hb), fun u hu => ?_⟩
  obtain ⟨bs', hrefused', hmem⟩ := hall u (WaitGraph.mem_waitsFor.1 hu)
  exact (mem_refused hrefused').1 hmem

/-- Two readers of page 0 leave while two writers wait for it. Of the writers one
lets go of another page in its sleep, and once the page is free it is granted to the
first of them, so that the second, woken too, sleeps on. -/
def writersQueue : List (Action Unit) :=
  [ask 0 1 ⟨.numbered 1, 0⟩ .shared, ask 1 2 ⟨.numbered 1, 0⟩ .shared,
    ask 2 4 ⟨.numbered 1, 1⟩ .exclusive, ask 3 3 ⟨.numbered 1, 0⟩ .exclusive,
    ask 4 4 ⟨.numbered 1, 0⟩ .exclusive, .release 1 ⟨.numbered 1, 0⟩,
    .request 3 ⟨3, ⟨.numbered 1, 0⟩, .exclusive, ()⟩ .woken,
    .request 4 ⟨4, ⟨.numbered 1, 0⟩, .exclusive, ()⟩ .woken,
    .release 4 ⟨.numbered 1, 1⟩, .releaseAll 2,
    .request 3 ⟨3, ⟨.numbered 1, 0⟩, .exclusive, ()⟩ .woken,
    .request 4 ⟨4, ⟨.numbered 1, 0⟩, .exclusive, ()⟩ .woken]

theorem sleepers_refused_and_recorded_writersQueue :
    let l := (writersQueue.foldl step start).table
    l.waitsFor 4 ≠ [] ∧ (∀ u ∈ l.waitsFor 4, u ∈ l.holders ⟨.numbered 1, 0⟩ ∧ u ≠ 4) ∧
      l.waitsFor 3 = [] := by
  intro l
  have hd : Reachable Patient (writersQueue.foldl step start) :=
    Reachable.start.run writersQueue (by decide +kernel)
  obtain ⟨hasleep, hawake⟩ := sleepers_refused_and_recorded hd
  obtain ⟨-, hsome, hall⟩ :=
    hasleep 4 ⟨4, ⟨.numbered 1, 0⟩, .exclusive, ()⟩ (by decide +kernel) (by decide +kernel)
  exact ⟨hsome, hall, hawake 3 (by decide +kernel)⟩

/-- Nothing of `t` sleeps that was not woken. -/
def Awake (d : Dispatch α) (t : TxnId) : Prop :=
  ∀ (k : Ticket) (r : LockRequest α), d.table.sleepers[k]? = some r → r.txn = t → k ∈ d.woken

theorem awake_iff_idle (hw : d.woken = []) : Awake d t ↔ d.table.Idle t := by
  simp [Awake, Idle, hw]

/-- The recorded waits are acyclic and no path of them goes on forever. With no
turn outstanding, every path from a sleeper that cannot be continued ends with
somebody who is awake and holds a lock. And at any time, if a request sleeps that
nobody woke, somebody awake holds a page whose release wakes such a request. -/
theorem waits_lead_to_awake (hd : Reachable Patient d) :
    d.table.waits.Acyclic ∧
    (∀ path : ℕ → TxnId, ∃ n, ¬d.table.waits.Edge (path n) (path (n + 1))) ∧
    (d.woken = [] → ∀ t u, ¬d.table.Idle t → d.table.waits.Reaches t u →
      (∀ v, ¬d.table.waits.Edge u v) → d.table.Idle u ∧ d.table.lockedPages u ≠ []) ∧
    ∀ (ticket : Ticket) (r : LockRequest α), d.table.sleepers[ticket]? = some r →
      ticket ∉ d.woken →
      ∃ t p, Awake d t ∧ p ∈ d.table.lockedPages t ∧
        ∃ (k : Ticket) (q : LockRequest α), d.table.sleepers[k]? = some q ∧ k ∉ d.woken ∧
          (k, q) ∈ (d.table.release t p).2 ∧ (k, q) ∈ (d.table.releaseAll t).2 := by
  have h := linked hd
  have hwf := h.acyclic.wellFounded
  refine ⟨h.acyclic, fun path => ?_, fun hw t u ht hr hn => ?_, fun ticket r hr hw => ?_⟩
  · by_contra! hforever
    exact (wellFounded_iff_isEmpty_descending_chain.1 hwf).elim ⟨path, hforever⟩
  · obtain ⟨hu, s, k, r, hk, -, hholds, -⟩ := h.path_end hw ht hr hn
    exact ⟨hu, List.ne_nil_of_mem (h.wakes hk hholds).1⟩
  · -- among the sleepers that nobody woke, one waits for none of the others
    obtain ⟨t, ⟨k, q, hk, hkw, rfl⟩, hmin⟩ := hwf.has_min
      {t | ∃ (k : Ticket) (q : LockRequest α), d.table.sleepers[k]? = some q ∧ k ∉ d.woken ∧
        q.txn = t} ⟨r.txn, ticket, r, hr, hw, rfl⟩
    obtain ⟨⟨b, hb⟩, hall⟩ := h.waiting k q hk hkw
    obtain ⟨hlocked, hone, hmany⟩ := h.wakes hk (hall b hb).mem_holders
    refine ⟨b, q.page, fun k' r' hk' he => ?_, hlocked, k, q, hk, hkw, hone, hmany⟩
    by_contra hkw'
    exact hmin b ⟨k', r', hk', hkw', he⟩ hb

/-- 3 sleeps on a page of 2, which sleeps on a page of 1. -/
def waitingLine : List (Action Unit) :=
  [ask 0 1 ⟨.numbered 1, 0⟩ .exclusive, ask 1 2 ⟨.numbered 1, 1⟩ .exclusive,
    ask 2 2 ⟨.numbered 1, 0⟩ .shared, ask 3 3 ⟨.numbered 1, 1⟩ .shared]

theorem waits_lead_to_awake_waitingLine :
    let l := (waitingLine.foldl step start).table
    (l.waits.Reaches 3 1 ∧ l.Idle 1 ∧ l.lockedPages 1 ≠ []) ∧
      ∃ t p, l.Idle t ∧ p ∈ l.lockedPages t ∧ (l.release t p).2 ≠ [] := by
  intro l
  have hd : Reachable Patient (waitingLine.foldl step start) :=
    Reachable.start.run waitingLine (by decide +kernel)
  have hnone : (waitingLine.foldl step start).woken = [] := by decide +kernel
  have hpath : l.waits.Reaches 3 1 :=
    .head (WaitGraph.mem_waitsFor.1 (show 2 ∈ l.waitsFor 3 by decide +kernel))
      (.single (WaitGraph.mem_waitsFor.1 (show 1 ∈ l.waitsFor 2 by decide +kernel)))
  have hlast : ∀ v, ¬l.waits.Edge 1 v := fun v hv => by
    have hmem : v ∈ l.waitsFor 1 := WaitGraph.mem_waitsFor.2 hv
    rw [show l.waitsFor 1 = [] by decide +kernel] at hmem
    cases hmem
  obtain ⟨-, -, hend, hwake⟩ := waits_lead_to_awake hd
  refine ⟨⟨hpath, hend hnone 3 1 (by decide +kernel) hpath hlast⟩, ?_⟩
  obtain ⟨t, p, ht, hp, k, q, -, -, hone, -⟩ :=
    hwake 3 ⟨3, ⟨.numbered 1, 1⟩, .shared, ()⟩ (by decide +kernel) (by decide +kernel)
  exact ⟨t, p, (awake_iff_idle hnone).1 ht, hp, List.ne_nil_of_mem hone⟩

end PageStore.LockTable.Dispatch
