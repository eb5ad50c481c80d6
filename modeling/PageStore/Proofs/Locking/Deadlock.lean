import Mathlib.Data.List.Chain
import PageStore.Proofs.Locking.Dispatch

/-!
# A request fails only in a real deadlock

If the requests woken by a release have their turns before anything else is
done, a recorded wait can be out of date in one way only: the transaction waited
for has let go and is awake. Nobody awake is recorded to wait, so no path of
recorded waits goes on from there, and one that comes back to the requester has
real waits all along.

Results:
* `Justified.step`, `justified`: a recorded wait is for somebody who is awake or
  blocks the waiter.
* `aborted_iff_deadlock`: a refused request fails exactly when a holder of its
  page reaches the requester, and then there is a ring of blocked requests.
-/
namespace PageStore.LockTable.Dispatch

variable {α : Type} {d : Dispatch α} {t a b : TxnId}

/-- The requests that a release woke have their turns before the next step. -/
def Punctual (d : Dispatch α) : Action α → Prop
  | .request ticket _ .woken => ticket ∈ d.woken
  | _ => d.woken = []

def Prompt (d : Dispatch α) (a : Action α) : Prop := Quiet d a ∧ Punctual d a

instance : ∀ a : Action α, Decidable (Punctual d a)
  | .request ticket _ .woken => inferInstanceAs (Decidable (ticket ∈ d.woken))
  | .request _ _ .first => inferInstanceAs (Decidable (d.woken = []))
  | .request _ _ .last => inferInstanceAs (Decidable (d.woken = []))
  | .release _ _ => inferInstanceAs (Decidable (d.woken = []))
  | .releaseAll _ => inferInstanceAs (Decidable (d.woken = []))

instance [DecidableEq α] (a : Action α) : Decidable (Prompt d a) :=
  inferInstanceAs (Decidable (Quiet d a ∧ Punctual d a))

/-- A sleeping request of `a` is blocked by `b`. -/
def BlockedBy (l : LockTable α) (a b : TxnId) : Prop :=
  ∃ (ticket : Ticket) (r : LockRequest α), l.sleepers[ticket]? = some r ∧ r.txn = a ∧ l.Blocks r b

/-- Who is recorded to be waited for is awake or blocks the waiter. -/
def Justified (d : Dispatch α) : Prop :=
  ∀ a b, d.table.waits.Edge a b → d.table.Idle b ∨ BlockedBy d.table a b

/-- With no turn outstanding, every recorded wait is for somebody who blocks the waiter. -/
theorem Linked.blockedBy (h : Linked d) (hw : d.woken = []) (he : d.table.waits.Edge a b) :
    BlockedBy d.table a b := by
  obtain ⟨k, r, hk, rfl⟩ := h.asleep a b he
  exact ⟨k, r, hk, rfl, (h.waiting k r hk (by simp [hw])).2 b he⟩

/-- Somebody whose turn it is after a sleep is not awake. -/
theorem not_idle {ticket : Ticket} {r : LockRequest α}
    (hr : d.table.sleepers[ticket]? = some r) : ¬d.table.Idle r.txn := fun hi => hi ticket r hr rfl

/-- A recorded wait for the requester, or for somebody who waits in turn, is real. -/
theorem Justified.blockedBy (hj : Justified d) (h : Linked d) {ticket : Ticket} {r : LockRequest α}
    {turn : Turn} (ha : Prompt d (.request ticket r turn)) (he : d.table.waits.Edge a b)
    (hb : b = r.txn ∨ ∃ x, d.table.waits.Edge b x) : BlockedBy d.table a b := by
  match turn, ha with
  | .first, ⟨_, hw⟩ => exact h.blockedBy hw he
  | .woken, ⟨hr, _⟩ =>
    refine (hj a b he).resolve_left fun hi => ?_
    rcases hb with rfl | ⟨x, hx⟩
    · exact not_idle hr hi
    · obtain ⟨k, r', hk, rfl⟩ := h.asleep b x hx
      exact not_idle hk hi

theorem Justified.ended (hj : Justified d) {d' : Dispatch α} {ticket : Ticket} {r : LockRequest α}
    (ho : Owned d ticket r) (ht : Took d d' ticket) (he : Ended d d' ticket r) : Justified d' := by
  intro a b hab
  obtain ⟨hne, hab⟩ := (he.edges a b).1 hab
  rcases hj a b hab with hi | ⟨k, r', hk, rfl, hb⟩
  · refine .inl fun k r' hk => hi k r' ?_
    rw [he.sleepers] at hk
    split at hk
    · cases hk
    · exact hk
  · refine .inr ⟨k, r', ?_, rfl, ht.blocks r' b hb⟩
    rw [he.sleepers, if_neg fun hk' => hne ((ho k r' hk).2 hk'), hk]

theorem Justified.slept (hj : Justified d) (h : Linked d) {d' : Dispatch α} {ticket : Ticket}
    {r : LockRequest α} {turn : Turn} {bs : List TxnId} (ha : Prompt d (.request ticket r turn))
    (ht : Took d d' ticket) (hs : Slept d d' ticket r bs) : Justified d' := by
  intro a b hab
  rw [hs.edges] at hab
  split at hab
  · next hat =>
    refine .inr ⟨ticket, r, by rw [hs.sleepers, if_pos rfl], hat.symm, ?_⟩
    exact ht.blocks r b ⟨bs, hs.refused, hab⟩
  · next hat =>
    by_cases hbt : b = r.txn
    · -- the sleeper is not awake any more, so the waits for it must be real
      obtain ⟨k, r', hk, rfl, hb⟩ := hj.blockedBy h ha hab (.inl hbt)
      have hkt : k ≠ ticket := fun hk' => hat ((h.owned ha.1.patient k r' hk).2 hk')
      exact .inr ⟨k, r', by rw [hs.sleepers, if_neg hkt, hk], rfl, ht.blocks r' b hb⟩
    · rcases hj a b hab with hi | ⟨k, r', hk, rfl, hb⟩
      · refine .inl fun k r' hk => ?_
        rw [hs.sleepers] at hk
        split at hk
        · cases hk
          exact Ne.symm hbt
        · exact hi k r' hk
      · have hkt : k ≠ ticket := fun hk' => hat ((h.owned ha.1.patient k r' hk).2 hk')
        exact .inr ⟨k, r', by rw [hs.sleepers, if_neg hkt, hk], rfl, ht.blocks r' b hb⟩

theorem Justified.release (h : Linked d) (hw : d.woken = []) {p : PageId} (ht : d.table.Idle t) :
    Justified (d.step (.release t p)) := by
  intro a b hab
  obtain ⟨k, r, hk, rfl, hb⟩ := h.blockedBy hw hab
  by_cases hbt : b = t
  · exact .inl (hbt ▸ ht)
  · exact .inr ⟨k, r, hk, rfl, hb.release hbt⟩

theorem Justified.releaseAll (h : Linked d) (hw : d.woken = []) :
    Justified (d.step (.releaseAll t)) := by
  intro a b hab
  obtain ⟨-, hbt, hab⟩ := WaitGraph.edge_removeTxn.1 hab
  obtain ⟨k, r, hk, rfl, hb⟩ := h.blockedBy hw hab
  exact .inr ⟨k, r, hk, rfl, hb.releaseAll h.safe hbt⟩

theorem Justified.step (hj : Justified d) (h : Linked d) :
    ∀ {a : Action α}, Prompt d a → Justified (d.step a)
  | .request ticket r turn, ha => by
    rcases h.request_cases ha.1.patient with he | ⟨bs, hs⟩
    · exact hj.ended (h.owned ha.1.patient) (h.took ticket r turn) he
    · exact hj.slept h ha (h.took ticket r turn) hs
  | .release _ _, ha => .release h ha.2 ha.1
  | .releaseAll _, ha => .releaseAll h ha.2

theorem justified (hd : Reachable Prompt d) : Justified d := by
  induction hd with
  | start =>
    intro a b hab
    simp [start, new, WaitGraph.Edge] at hab
  | step hd ha ih => exact ih.step (linked (hd.mono fun _ _ h => h.1.patient)) ha

/-! ## Failing requests -/

/-- A request of `a`, the one that has its turn or one that sleeps, is refused on
a page that `b` holds. -/
def Stuck (l : LockTable α) (r : LockRequest α) (a b : TxnId) : Prop :=
  ∃ r', (r' = r ∨ ∃ ticket : Ticket, l.sleepers[ticket]? = some r') ∧ r'.txn = a ∧ l.Blocks r' b

/-- On a path of recorded waits to the requester everybody is stuck. -/
theorem stuck_of_reaches (hd : Reachable Prompt d) {ticket : Ticket} {r : LockRequest α}
    {turn : Turn} (ha : Prompt d (.request ticket r turn)) (hr : d.table.waits.Reaches a r.txn) :
    Relation.ReflTransGen (Stuck d.table r) a r.txn := by
  have h := linked (hd.mono fun _ _ h => h.1.patient)
  induction hr using Relation.ReflTransGen.head_induction_on with
  | refl => exact .refl
  | @head x y hxy hyr ih =>
    have hy : y = r.txn ∨ ∃ z, d.table.waits.Edge y z := by
      rcases Relation.ReflTransGen.cases_head hyr with hy | ⟨z, hz, -⟩
      · exact .inl hy
      · exact .inr ⟨z, hz⟩
    obtain ⟨k, r', hk, hx, hb⟩ := (justified hd).blockedBy h ha hxy hy
    exact .head ⟨r', .inr ⟨k, hk⟩, hx, hb⟩ ih

/-- A request that is refused at its turn fails exactly when a holder of its page
other than the requester reaches the requester along recorded waits. And if it
fails, there is a ring `r.txn, ring₁, ring₂, …, r.txn` of at least two
transactions, each with a refused request on a page that the next one holds. -/
theorem aborted_iff_deadlock (hd : Reachable Prompt d) {ticket : Ticket} {r : LockRequest α}
    {turn : Turn} (ha : Prompt d (.request ticket r turn)) :
    let verdict := (d.table.request ticket r turn).2
    (verdict ≠ .granted → (verdict = .aborted ↔
      ∃ h ∈ d.table.holders r.page, h ≠ r.txn ∧ d.table.waits.Reaches h r.txn)) ∧
    (verdict = .aborted → ∃ ring : List TxnId, 2 ≤ ring.length ∧ ring.getLast? = some r.txn ∧
      List.IsChain (Stuck d.table r) (r.txn :: ring)) := by
  intro verdict
  have h := linked (hd.mono fun _ _ h => h.1.patient)
  -- the recorded waits were acyclic, so a ring goes through the requester
  have hring : ∀ bs, LockEntry.decide d.table.entries[r.page]? r.txn r.mode = .refuse bs →
      ((d.table.waits.setWaits r.txn bs).hasCycle = true ↔
        ∃ u ∈ d.table.holders r.page, u ≠ r.txn ∧ d.table.waits.Reaches u r.txn) := by
    intro bs hd
    rw [h.acyclic.hasCycle_setWaits]
    simp only [mem_refused hd]
    exact exists_congr fun u => ⟨fun ⟨⟨hu, _⟩, hne, hr⟩ => ⟨hu, hne, hr⟩,
      fun ⟨hu, hne, hr⟩ => ⟨⟨hu, hne⟩, hne, hr⟩⟩
  rcases request_cycleDetection h.policy ticket r turn with ⟨e, -, hq⟩ | ⟨bs, hd', ⟨hc, hq⟩ | ⟨hc, hq⟩⟩
  · have hv : verdict = .granted := congrArg Prod.snd hq
    simp [hv]
  · have hv : verdict = .asleep := congrArg Prod.snd hq
    have hno := (not_congr (hring bs hd')).1 (by simp [hc])
    simp [hv, hno]
  · have hv : verdict = .aborted := congrArg Prod.snd hq
    obtain ⟨u, hu, hne, hr⟩ := (hring bs hd').1 hc
    refine ⟨fun _ => ⟨fun _ => ⟨u, hu, hne, hr⟩, fun _ => hv⟩, fun _ => ?_⟩
    obtain ⟨rest, hchain, hlast⟩ :=
      List.exists_isChain_cons_of_relationReflTransGen (stuck_of_reaches hd ha hr)
    refine ⟨u :: rest, ?_, ?_, ?_⟩
    · rcases rest with _ | ⟨v, rest⟩
      · exact absurd hlast hne
      · simp
    · rw [List.getLast?_eq_some_getLast (List.cons_ne_nil u rest), hlast]
    · refine List.isChain_cons_cons.2 ⟨⟨r, .inl rfl, rfl, bs, hd', ?_⟩, hchain⟩
      exact (mem_refused hd').2 ⟨hu, hne⟩

/-- Two readers of a page; the first waits to become its writer. -/
def upgraders : List (Action Unit) :=
  [ask 0 1 ⟨.numbered 1, 0⟩ .shared, ask 1 2 ⟨.numbered 1, 0⟩ .shared,
    ask 2 1 ⟨.numbered 1, 0⟩ .exclusive]

theorem aborted_iff_deadlock_upgraders :
    let l := (upgraders.foldl step start).table
    let r : LockRequest Unit := ⟨2, ⟨.numbered 1, 0⟩, .exclusive, ()⟩
    (∃ h ∈ l.holders r.page, h ≠ 2 ∧ l.waits.Reaches h 2) ∧
      ∃ ring : List TxnId, 2 ≤ ring.length ∧ ring.getLast? = some 2 ∧
        List.IsChain (Stuck l r) (2 :: ring) := by
  intro l r
  have hd : Reachable Prompt (upgraders.foldl step start) :=
    Reachable.start.run upgraders (by decide +kernel)
  have hv : (l.request 3 r .first).2 = .aborted := by decide +kernel
  have hp : Prompt (upgraders.foldl step start) (.request 3 r .first) := by decide +kernel
  obtain ⟨hiff, hring⟩ := aborted_iff_deadlock hd hp
  exact ⟨(hiff (by rw [hv]; simp)).1 hv, hring hv⟩

end PageStore.LockTable.Dispatch
