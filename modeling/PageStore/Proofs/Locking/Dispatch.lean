import Mathlib.Order.WellFounded
import PageStore.Proofs.Locking.Blocked

/-!
# Sleeping requests under cycle detection

A release wakes the sleepers of its page, but they decide again later, each in a
turn of its own, and other transactions may act before. `Dispatch` is a lock
table together with the tickets that were woken and have not had their turn.

`Patient` says what callers keep to: whoever sleeps makes no other request and
does not end. Then the recorded waits are acyclic, and those of a sleeper that
nobody woke are all real: it is blocked by each transaction it is recorded to
wait for, and there is at least one.

The records are not complete. A page that is held shared gains holders without
its sleepers being told, so a sleeper may wait for more transactions than are
recorded, and these waits can form a ring.

Results:
* `Linked.step`, `linked`: the invariant, for one action and for a run.
* `waits_recorded`: what the records say about sleepers, and that they never
  wait for each other only.
* `exists_unrecorded_ring`: a ring of waits that no record shows.
-/
namespace PageStore

namespace LockTable

variable {α : Type}

/-! ## Actions and woken tickets -/

/-- A lock table, and the tickets that were woken and have not had their turn yet. -/
structure Dispatch (α : Type) where
  table : LockTable α
  woken : List Ticket

namespace Dispatch

variable {d : Dispatch α} {t : TxnId} {p : PageId}

def start : Dispatch α := ⟨new .cycleDetection, []⟩

/-- The tickets that wait for their turn after an action. -/
def wokenAfter (d : Dispatch α) : Action α → List Ticket
  | .request ticket _ _ => d.woken.filter (· != ticket)
  | .release t p => d.woken ++ (d.table.release t p).2.map (·.1)
  | .releaseAll t => d.woken ++ (d.table.releaseAll t).2.map (·.1)

def step (d : Dispatch α) (a : Action α) : Dispatch α := ⟨d.table.act a, d.wokenAfter a⟩

/-- Who sleeps asks for nothing else, and does not end. A sleeping request may
try again at any time, whether it was woken or not. -/
def Patient (d : Dispatch α) : Action α → Prop
  | .request ticket r .first => d.table.Idle r.txn ∧ d.table.sleepers[ticket]? = none
  | .request ticket r .woken => d.table.sleepers[ticket]? = some r
  | .request _ _ .last => False
  | .release _ _ => True
  | .releaseAll t => d.table.Idle t

/-- Patience in the narrow sense: who sleeps does not let go of single pages either. -/
def Quiet (d : Dispatch α) : Action α → Prop
  | .release t _ => d.table.Idle t
  | a => Patient d a

theorem Quiet.patient : ∀ {a : Action α}, Quiet d a → Patient d a
  | .request .., h => h
  | .release .., _ => trivial
  | .releaseAll _, h => h

instance [DecidableEq α] : ∀ a : Action α, Decidable (Patient d a)
  | .request ticket r .first =>
    inferInstanceAs (Decidable (d.table.Idle r.txn ∧ d.table.sleepers[ticket]? = none))
  | .request ticket r .woken => inferInstanceAs (Decidable (d.table.sleepers[ticket]? = some r))
  | .request _ _ .last => inferInstanceAs (Decidable False)
  | .release _ _ => inferInstanceAs (Decidable True)
  | .releaseAll t => inferInstanceAs (Decidable (d.table.Idle t))

instance [DecidableEq α] : ∀ a : Action α, Decidable (Quiet d a)
  | .request ticket r turn => inferInstanceAs (Decidable (Patient d (.request ticket r turn)))
  | .release t _ => inferInstanceAs (Decidable (d.table.Idle t))
  | .releaseAll t => inferInstanceAs (Decidable (d.table.Idle t))

/-- The states that actions lead to which are allowed where they are taken. -/
inductive Reachable (allowed : Dispatch α → Action α → Prop) : Dispatch α → Prop
  | start : Reachable allowed start
  | step {d : Dispatch α} {a : Action α} : Reachable allowed d → allowed d a →
      Reachable allowed (d.step a)

/-- Every action of a sequence is allowed where it is taken. -/
def Allows (allowed : Dispatch α → Action α → Prop) : Dispatch α → List (Action α) → Prop
  | _, [] => True
  | d, a :: actions => allowed d a ∧ Allows allowed (d.step a) actions

instance decidableAllows {allowed : Dispatch α → Action α → Prop} [∀ d a, Decidable (allowed d a)] :
    ∀ (d : Dispatch α) (actions : List (Action α)), Decidable (Allows allowed d actions)
  | _, [] => inferInstanceAs (Decidable True)
  | d, a :: actions => @instDecidableAnd _ _ _ (decidableAllows (d.step a) actions)

theorem Reachable.run {allowed : Dispatch α → Action α → Prop} :
    ∀ (actions : List (Action α)) {d : Dispatch α}, Reachable allowed d →
      Allows allowed d actions → Reachable allowed (actions.foldl Dispatch.step d)
  | [], _, hd, _ => hd
  | _ :: actions, _, hd, ha => Reachable.run actions (hd.step ha.1) ha.2

theorem Reachable.mono {allowed allowed' : Dispatch α → Action α → Prop}
    (h : ∀ d a, allowed d a → allowed' d a) (hd : Reachable allowed d) : Reachable allowed' d := by
  induction hd with
  | start => exact .start
  | step _ ha ih => exact ih.step (h _ _ ha)

/-! ## Recorded waits -/

/-- How the recorded waits are linked to the sleeping requests. -/
structure Linked (d : Dispatch α) : Prop where
  safe : Safe d.table
  policy : d.table.policy = .cycleDetection
  /-- A transaction has one sleeping request at most. -/
  single : ∀ (k k' : Ticket) (r r' : LockRequest α), d.table.sleepers[k]? = some r →
    d.table.sleepers[k']? = some r' → r.txn = r'.txn → k = k'
  acyclic : d.table.waits.Acyclic
  /-- Who is recorded to wait sleeps. -/
  asleep : ∀ a b, d.table.waits.Edge a b → ∃ (k : Ticket) (r : LockRequest α),
    d.table.sleepers[k]? = some r ∧ r.txn = a
  /-- Unless it was woken, a sleeper is recorded to wait, for such as block it. -/
  waiting : ∀ (k : Ticket) (r : LockRequest α), d.table.sleepers[k]? = some r → k ∉ d.woken →
    (∃ b, d.table.waits.Edge r.txn b) ∧ ∀ b, d.table.waits.Edge r.txn b → d.table.Blocks r b

theorem linked_start : Linked (start : Dispatch α) := by
  refine ⟨safe_new _, rfl, ?_, WaitGraph.acyclic_empty, ?_, ?_⟩
  · intro k k' r r' h
    simp [start, new] at h
  · intro a b h
    simp [start, new, WaitGraph.Edge] at h
  · intro k r h
    simp [start, new] at h

/-- A ticket is that of the only request of its transaction, if there is one. -/
def Owned (d : Dispatch α) (ticket : Ticket) (r : LockRequest α) : Prop :=
  ∀ (k : Ticket) (r' : LockRequest α), d.table.sleepers[k]? = some r' →
    (r'.txn = r.txn ↔ k = ticket)

theorem Linked.owned (h : Linked d) {ticket : Ticket} {r : LockRequest α} {turn : Turn}
    (ha : Patient d (.request ticket r turn)) : Owned d ticket r := by
  intro k r' hk
  match turn, ha with
  | .first, ⟨hidle, hnew⟩ =>
    refine ⟨fun he => absurd he (hidle k r' hk), ?_⟩
    rintro rfl
    rw [hnew] at hk
    cases hk
  | .woken, hr =>
    refine ⟨fun he => h.single k ticket r' r hk hr he, ?_⟩
    rintro rfl
    rw [show d.table.sleepers[k]? = some r from hr] at hk
    cases hk
    rfl

/-- After a turn the request is over, granted or failed: it neither sleeps nor waits. -/
structure Ended (d d' : Dispatch α) (ticket : Ticket) (r : LockRequest α) : Prop where
  sleepers : ∀ k : Ticket,
    d'.table.sleepers[k]? = if k = ticket then none else d.table.sleepers[k]?
  edges : ∀ a b, d'.table.waits.Edge a b ↔ a ≠ r.txn ∧ d.table.waits.Edge a b

/-- After a turn the request sleeps, recorded to wait for all who block it. -/
structure Slept (d d' : Dispatch α) (ticket : Ticket) (r : LockRequest α) (bs : List TxnId) :
    Prop where
  refused : LockEntry.decide d.table.entries[r.page]? r.txn r.mode = .refuse bs
  sleepers : ∀ k : Ticket,
    d'.table.sleepers[k]? = if k = ticket then some r else d.table.sleepers[k]?
  edges : ∀ a b, d'.table.waits.Edge a b ↔ if a = r.txn then b ∈ bs else d.table.waits.Edge a b
  acyclic : d'.table.waits.Acyclic

theorem Linked.request_cases (h : Linked d) {ticket : Ticket} {r : LockRequest α} {turn : Turn}
    (ha : Patient d (.request ticket r turn)) :
    Ended d (d.step (.request ticket r turn)) ticket r ∨
      ∃ bs, Slept d (d.step (.request ticket r turn)) ticket r bs := by
  have hstep : (d.step (.request ticket r turn)).table = (d.table.request ticket r turn).1 := rfl
  rcases request_cycleDetection h.policy ticket r turn with ⟨e, -, hq⟩ | ⟨bs, hd, ⟨hc, hq⟩ | ⟨-, hq⟩⟩
  · refine .inl ⟨?_, fun a b => ?_⟩
    · rw [hstep, hq]
      exact fun k => getElem?_sleepers_erase ..
    · rw [hstep, hq, grant]
      dsimp only
      split
      · exact WaitGraph.edge_removeWaiter
      · next hfirst =>
        refine ⟨fun he => ⟨?_, he⟩, And.right⟩
        rintro rfl
        -- without a removal this was the first turn, of somebody who did not sleep
        obtain ⟨k, r', hk, hr⟩ := h.asleep _ b he
        rw [h.policy] at hfirst
        obtain rfl : turn = .first := by simpa using hfirst
        exact ha.1 k r' hk hr
  · refine .inr ⟨bs, hd, ?_, fun a b => ?_, ?_⟩
    · rw [hstep, hq]
      exact fun k => getElem?_sleepers_insert ..
    · rw [hstep, hq, WaitGraph.edge_setWaits]
      split
      · exact and_iff_left_of_imp fun hb => ((mem_refused hd).1 hb).2
      · exact Iff.rfl
    · rw [hstep, hq]
      exact WaitGraph.hasCycle_eq_false_iff.1 hc
  · refine .inl ⟨?_, fun a b => ?_⟩
    · rw [hstep, hq]
      exact fun k => getElem?_sleepers_erase ..
    · rw [hstep, hq]
      refine WaitGraph.edge_removeWaiter.trans (and_congr_right fun hne => ?_)
      rw [WaitGraph.edge_setWaits, if_neg hne]

/-- After a turn no other ticket lost its turn, and no block is lifted. -/
structure Took (d d' : Dispatch α) (ticket : Ticket) : Prop where
  safe : Safe d'.table
  policy : d'.table.policy = .cycleDetection
  woken : ∀ k ≠ ticket, k ∉ d'.woken → k ∉ d.woken
  blocks : ∀ r b, d.table.Blocks r b → d'.table.Blocks r b

theorem Linked.took (h : Linked d) (ticket : Ticket) (r : LockRequest α) (turn : Turn) :
    Took d (d.step (.request ticket r turn)) ticket where
  safe := h.safe.request ticket r turn
  policy := (policy_request ..).trans h.policy
  woken _ hne hk hd := hk (List.mem_filter.2 ⟨hd, by simpa using hne⟩)
  blocks _ _ hb := hb.request ticket r turn

theorem Linked.ended (h : Linked d) {d' : Dispatch α} {ticket : Ticket} {r : LockRequest α}
    (ho : Owned d ticket r) (ht : Took d d' ticket) (he : Ended d d' ticket r) : Linked d' := by
  have hold : ∀ (k : Ticket) (r' : LockRequest α), d'.table.sleepers[k]? = some r' →
      k ≠ ticket ∧ d.table.sleepers[k]? = some r' := by
    intro k r' hk
    rw [he.sleepers] at hk
    split at hk
    · cases hk
    · next hne => exact ⟨hne, hk⟩
  refine ⟨ht.safe, ht.policy, ?_, h.acyclic.mono fun a b hab => ((he.edges a b).1 hab).2, ?_, ?_⟩
  · intro k k' r1 r2 h1 h2
    exact h.single k k' r1 r2 (hold k r1 h1).2 (hold k' r2 h2).2
  · intro a b hab
    obtain ⟨hne, hab⟩ := (he.edges a b).1 hab
    obtain ⟨k, r', hk, rfl⟩ := h.asleep a b hab
    exact ⟨k, r', by rw [he.sleepers, if_neg fun hk' => hne ((ho k r' hk).2 hk'), hk], rfl⟩
  · intro k r' hk hw
    obtain ⟨hne, hk⟩ := hold k r' hk
    have hother : r'.txn ≠ r.txn := fun he => hne ((ho k r' hk).1 he)
    obtain ⟨⟨b, hb⟩, hall⟩ := h.waiting k r' hk (ht.woken k hne hw)
    exact ⟨⟨b, (he.edges _ b).2 ⟨hother, hb⟩⟩,
      fun b hb => ht.blocks r' b (hall b ((he.edges _ b).1 hb).2)⟩

theorem Linked.slept (h : Linked d) {d' : Dispatch α} {ticket : Ticket} {r : LockRequest α}
    {bs : List TxnId} (ho : Owned d ticket r) (ht : Took d d' ticket)
    (hs : Slept d d' ticket r bs) : Linked d' := by
  refine ⟨ht.safe, ht.policy, ?_, hs.acyclic, ?_, ?_⟩
  · intro k k' r1 r2 h1 h2 heq
    rw [hs.sleepers] at h1 h2
    split at h1 <;> split at h2
    · next hk hk' => rw [hk, hk']
    · next hk hk' =>
      cases h1
      exact absurd ((ho k' r2 h2).1 heq.symm) hk'
    · next hk hk' =>
      cases h2
      exact absurd ((ho k r1 h1).1 heq) hk
    · exact h.single k k' r1 r2 h1 h2 heq
  · intro a b hab
    rw [hs.edges] at hab
    split at hab
    · next ha => exact ⟨ticket, r, by rw [hs.sleepers, if_pos rfl], ha.symm⟩
    · next ha =>
      obtain ⟨k, r', hk, rfl⟩ := h.asleep a b hab
      exact ⟨k, r', by rw [hs.sleepers, if_neg fun hk' => ha ((ho k r' hk).2 hk'), hk], rfl⟩
  · intro k r' hk hw
    rw [hs.sleepers] at hk
    simp only [hs.edges]
    split at hk
    · cases hk
      simp only [if_true]
      exact ⟨exists_blocks h.safe hs.refused, fun b hb => ht.blocks r b ⟨bs, hs.refused, hb⟩⟩
    · next hkt =>
      have hother : r'.txn ≠ r.txn := fun he => hkt ((ho k r' hk).1 he)
      obtain ⟨hex, hall⟩ := h.waiting k r' hk (ht.woken k hkt hw)
      simp only [if_neg hother]
      exact ⟨hex, fun b hb => ht.blocks r' b (hall b hb)⟩

theorem Linked.request (h : Linked d) {ticket : Ticket} {r : LockRequest α} {turn : Turn}
    (ha : Patient d (.request ticket r turn)) : Linked (d.step (.request ticket r turn)) := by
  rcases h.request_cases ha with he | ⟨bs, hs⟩
  · exact h.ended (h.owned ha) (h.took ticket r turn) he
  · exact h.slept (h.owned ha) (h.took ticket r turn) hs

/-- Letting go of pages: the sleepers on these pages are woken, the others keep
what they wait for. -/
theorem Linked.freed (h : Linked d) {d' : Dispatch α} (hsafe : Safe d'.table)
    (hpolicy : d'.table.policy = d.table.policy) (hsleep : d'.table.sleepers = d.table.sleepers)
    (hedge : ∀ a b, d'.table.waits.Edge a b → d.table.waits.Edge a b)
    (hkeep : ∀ (k : Ticket) (r : LockRequest α), d.table.sleepers[k]? = some r → k ∉ d'.woken →
      k ∉ d.woken ∧ d'.table.entries[r.page]? = d.table.entries[r.page]? ∧
      ∀ b, d.table.Blocks r b → d.table.waits.Edge r.txn b → d'.table.waits.Edge r.txn b) :
    Linked d' := by
  refine ⟨hsafe, hpolicy.trans h.policy, ?_, h.acyclic.mono hedge, ?_, ?_⟩
  · rw [hsleep]
    exact h.single
  · intro a b he
    rw [hsleep]
    exact h.asleep a b (hedge a b he)
  · intro k r hk hw
    rw [hsleep] at hk
    obtain ⟨hold, hentry, hstay⟩ := hkeep k r hk hw
    obtain ⟨⟨b, hb⟩, hall⟩ := h.waiting k r hk hold
    exact ⟨⟨b, hstay b (hall b hb) hb⟩, fun b hb => (hall b (hedge _ b hb)).congr hentry⟩

theorem not_woken (on : PageId → Bool) {k : Ticket} {r : LockRequest α}
    (hk : d.table.sleepers[k]? = some r)
    (hw : k ∉ d.woken ++ (d.table.sleepersOn on).map (·.1)) : k ∉ d.woken ∧ on r.page = false := by
  rw [List.mem_append, not_or] at hw
  refine ⟨hw.1, Bool.eq_false_iff.2 fun ho => hw.2 ?_⟩
  exact List.mem_map.2 ⟨(k, r), mem_sleepersOn.2 ⟨hk, ho⟩, rfl⟩

theorem Linked.release (h : Linked d) (t : TxnId) (p : PageId) : Linked (d.step (.release t p)) := by
  refine h.freed (h.safe.release t p) rfl rfl (fun _ _ he => he) fun k r hk hw => ?_
  obtain ⟨hold, hpage⟩ := not_woken (· == p) hk hw
  refine ⟨hold, ?_, fun _ _ he => he⟩
  show (releaseEntry d.table.entries t p)[r.page]? = _
  rw [getElem?_releaseEntry, if_neg (by simpa using hpage)]

theorem Linked.releaseAll (h : Linked d) (hidle : d.table.Idle t) :
    Linked (d.step (.releaseAll t)) := by
  refine h.freed (h.safe.releaseAll t) rfl rfl (fun _ _ he => (WaitGraph.edge_removeTxn.1 he).2.2)
    fun k r hk hw => ?_
  obtain ⟨hold, hpage⟩ := not_woken _ hk hw
  have hnot : t ∉ d.table.holdersSet r.page := by
    rw [← h.safe.mirror, ← Std.TreeSet.contains_iff_mem, hpage]
    simp
  refine ⟨hold, ?_, fun b hb he => WaitGraph.edge_removeTxn.2 ⟨hidle k r hk, ?_, he⟩⟩
  · exact (entries_releaseAll h.safe t r.page).trans (if_neg hnot)
  · rintro rfl
    exact hnot (LockTable.mem_holders.1 hb.mem_holders)

theorem Linked.step (h : Linked d) : ∀ {a : Action α}, Patient d a → Linked (d.step a)
  | .request .., ha => h.request ha
  | .release t p, _ => h.release t p
  | .releaseAll _, ha => h.releaseAll ha

theorem linked (hd : Reachable Patient d) : Linked d := by
  induction hd with
  | start => exact linked_start
  | step _ ha ih => exact ih.step ha

/-! ## Waits that are recorded, and others -/

/-- A request of `t` sleeps on a page that `u` holds. -/
def TrulyWaits (l : LockTable α) (t u : TxnId) : Prop :=
  ∃ (ticket : Ticket) (r : LockRequest α), l.sleepers[ticket]? = some r ∧ r.txn = t ∧
    u ∈ l.holders r.page ∧ u ≠ t

/-- The recorded waits are acyclic. A sleeper that nobody woke is recorded to
wait for somebody, and really waits for all it is recorded to wait for. So among
such sleepers, one at least waits for a transaction that is not one of them. -/
theorem waits_recorded (hd : Reachable Patient d) :
    d.table.waits.Acyclic ∧
    (∀ (ticket : Ticket) (r : LockRequest α), d.table.sleepers[ticket]? = some r →
      ticket ∉ d.woken → d.table.waitsFor r.txn ≠ [] ∧
        ∀ u ∈ d.table.waitsFor r.txn, TrulyWaits d.table r.txn u) ∧
    ∀ ts : Set TxnId, ts.Nonempty →
      (∀ t ∈ ts, ∃ (ticket : Ticket) (r : LockRequest α), d.table.sleepers[ticket]? = some r ∧
        r.txn = t ∧ ticket ∉ d.woken) →
      ∃ t ∈ ts, ∃ u, u ∉ ts ∧ TrulyWaits d.table t u := by
  have h := linked hd
  have hreal : ∀ (ticket : Ticket) (r : LockRequest α), d.table.sleepers[ticket]? = some r →
      ticket ∉ d.woken → d.table.waitsFor r.txn ≠ [] ∧
        ∀ u ∈ d.table.waitsFor r.txn, TrulyWaits d.table r.txn u := by
    intro ticket r hr hw
    obtain ⟨⟨b, hb⟩, hall⟩ := h.waiting ticket r hr hw
    refine ⟨List.ne_nil_of_mem (WaitGraph.mem_waitsFor.2 hb), fun u hu => ?_⟩
    have hblock := hall u (WaitGraph.mem_waitsFor.1 hu)
    obtain ⟨-, -, -, hne, -⟩ := blocks_iff.1 hblock
    exact ⟨ticket, r, hr, rfl, hblock.mem_holders, hne⟩
  refine ⟨h.acyclic, hreal, fun ts hne hts => ?_⟩
  -- of these sleepers, one is recorded to wait for none of the others
  obtain ⟨t, ht, hmin⟩ := h.acyclic.wellFounded.has_min ts hne
  obtain ⟨ticket, r, hr, rfl, hw⟩ := hts t ht
  obtain ⟨hsome, hall⟩ := hreal ticket r hr hw
  obtain ⟨u, hu⟩ := List.exists_mem_of_ne_nil _ hsome
  exact ⟨r.txn, ht, u, fun hin => hmin u hin (WaitGraph.mem_waitsFor.1 hu), hall u hu⟩

/-- The first turn of a request. -/
def ask (ticket : Ticket) (t : TxnId) (p : PageId) (mode : LockMode) : Action Unit :=
  .request ticket ⟨t, p, mode, ()⟩ .first

/-- A reader joins page 0 while the owner of page 1 sleeps on it; nobody tells the owner. -/
def readerJoins : List (Action Unit) :=
  [ask 0 1 ⟨.numbered 1, 0⟩ .shared, ask 1 2 ⟨.numbered 1, 1⟩ .exclusive,
    ask 2 2 ⟨.numbered 1, 0⟩ .exclusive, ask 3 3 ⟨.numbered 1, 0⟩ .shared,
    ask 4 3 ⟨.numbered 1, 1⟩ .exclusive]

theorem reachable_readerJoins : Reachable Quiet (readerJoins.foldl step start) :=
  Reachable.start.run readerJoins (by decide +kernel)

theorem waits_recorded_readerJoins :
    ∃ t, (t = 2 ∨ t = 3) ∧ ∃ u, ¬(u = 2 ∨ u = 3) ∧
      TrulyWaits (readerJoins.foldl step start).table t u := by
  obtain ⟨-, -, hout⟩ := waits_recorded (reachable_readerJoins.mono fun _ _ h => h.patient)
  refine hout {t | t = 2 ∨ t = 3} ⟨2, .inl rfl⟩ ?_
  rintro t (rfl | rfl)
  · exact ⟨2, ⟨2, ⟨.numbered 1, 0⟩, .exclusive, ()⟩, by decide +kernel, rfl, by decide +kernel⟩
  · exact ⟨4, ⟨3, ⟨.numbered 1, 1⟩, .exclusive, ()⟩, by decide +kernel, rfl, by decide +kernel⟩

/-- The records do not show every ring: after `readerJoins`, 2 and 3 sleep on pages
of each other, and 2 is recorded to wait for 1 only. -/
theorem exists_unrecorded_ring :
    ¬∀ d : Dispatch Unit, Reachable Quiet d → ∀ t, ¬Relation.TransGen (TrulyWaits d.table) t t := by
  intro h
  have h23 : TrulyWaits (readerJoins.foldl step start).table 2 3 :=
    ⟨2, ⟨2, ⟨.numbered 1, 0⟩, .exclusive, ()⟩, by decide +kernel, rfl, by decide +kernel, by decide⟩
  have h32 : TrulyWaits (readerJoins.foldl step start).table 3 2 :=
    ⟨4, ⟨3, ⟨.numbered 1, 1⟩, .exclusive, ()⟩, by decide +kernel, rfl, by decide +kernel, by decide⟩
  exact h _ reachable_readerJoins 2 (.head h23 (.single h32))

end Dispatch
end LockTable
end PageStore
