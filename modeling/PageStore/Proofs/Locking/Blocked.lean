import PageStore.Locking.Waking
import PageStore.Proofs.Locking.WaitGraph

/-!
# Blocked requests

A request is blocked by the holders that make its page refuse it. Requests of
others lift no block, and a release lifts only those by the transaction that
lets go.

Results:
* `blocks_iff`: a block is a holder other than the requester, in a mode or
  against a mode that excludes them.
* `Blocks.request`, `Blocks.without`: what becomes of a block.
* `request_cycleDetection`: what a turn comes to under cycle detection.
-/
namespace PageStore

namespace LockEntry

/-- A request is refused by an entry that holds the page for others, in a mode
or against a mode that excludes them. -/
theorem decide_refuse {old : Option LockEntry} {t : TxnId} {mode : LockMode} {bs : List TxnId} :
    decide old t mode = .refuse bs ↔ ∃ e, old = some e ∧ e.others t = bs ∧ e.isSole t = false ∧
      (mode = .exclusive ∨ e.mode = .exclusive) := by
  cases old with
  | none => simp [decide]
  | some e =>
    cases mode <;> cases hm : e.mode <;> cases hs : e.isSole t <;> simp [decide, hm, hs]

theorem mem_others {e : LockEntry} {t u : TxnId} : u ∈ e.others t ↔ u ∈ e.holders ∧ u ≠ t := by
  simp [others]

/-- Whoever is not the one holder of a sound entry finds another. -/
theorem Sound.exists_mem_others {e : LockEntry} (h : e.Sound) {t : TxnId} (hs : e.isSole t = false) :
    ∃ u, u ∈ e.others t := by
  by_contra hn
  simp only [mem_others, not_exists, not_and, not_not] at hn
  obtain ⟨u, hu⟩ := h.held
  obtain rfl := hn u hu
  have hlist := LockTable.eq_singleton_of_nodup (LockTable.nodup_of_distinct e.holders)
    (Std.TreeSet.mem_toList.2 hu) fun x hx => hn x (Std.TreeSet.mem_toList.1 hx)
  have hsole : e.isSole u = true := by
    rw [isSole, ← Std.TreeSet.length_toList, hlist]
    simpa using hu
  simp [hsole] at hs

end LockEntry

namespace LockTable

variable {α : Type} {l : LockTable α}

/-! ## Blocked requests -/

/-- The request would be refused now, and `b` is among those it would wait for. -/
def Blocks (l : LockTable α) (r : LockRequest α) (b : TxnId) : Prop :=
  ∃ bs, LockEntry.decide l.entries[r.page]? r.txn r.mode = .refuse bs ∧ b ∈ bs

theorem blocks_iff {r : LockRequest α} {b : TxnId} :
    l.Blocks r b ↔ ∃ e, l.entries[r.page]? = some e ∧ b ∈ e.holders ∧ b ≠ r.txn ∧
      (r.mode = .exclusive ∨ e.mode = .exclusive) := by
  simp only [Blocks, LockEntry.decide_refuse]
  constructor
  · rintro ⟨_, ⟨e, he, rfl, -, hm⟩, hb⟩
    obtain ⟨hb, hne⟩ := LockEntry.mem_others.1 hb
    exact ⟨e, he, hb, hne, hm⟩
  · rintro ⟨e, he, hb, hne, hm⟩
    refine ⟨_, ⟨e, he, rfl, ?_, hm⟩, LockEntry.mem_others.2 ⟨hb, hne⟩⟩
    rw [Bool.eq_false_iff]
    exact fun hs => hne (LockEntry.eq_of_isSole hs hb)

theorem Blocks.mem_holders {r : LockRequest α} {b : TxnId} (h : l.Blocks r b) :
    b ∈ l.holders r.page := by
  obtain ⟨e, he, hb, -⟩ := blocks_iff.1 h
  exact LockTable.mem_holders.2 (mem_holdersSet.2 ⟨e, he, hb⟩)

theorem Blocks.congr {l' : LockTable α} {r : LockRequest α} {b : TxnId} (h : l.Blocks r b)
    (he : l'.entries[r.page]? = l.entries[r.page]?) : l'.Blocks r b := by
  rw [Blocks, he]
  exact h

/-- No request of anybody lifts a block. -/
theorem Blocks.request {r : LockRequest α} {b : TxnId} (h : l.Blocks r b) (ticket : Ticket)
    (r' : LockRequest α) (turn : Turn) : (l.request ticket r' turn).1.Blocks r b := by
  rcases request_cases l ticket r' turn with ⟨e, hd, hg⟩ | ⟨-, he, -⟩
  · obtain ⟨hmem, -, -, hmode⟩ := LockEntry.decide_grant hd
    obtain ⟨o, ho, hb, hne, hm⟩ := blocks_iff.1 h
    rw [hg, blocks_iff]
    simp only [entries_grant]
    split
    · next hp =>
      rw [hp] at ho
      exact ⟨e, rfl, (hmem b).2 (.inr ⟨o, ho, hb⟩), hne, hm.imp_right (hmode o ho)⟩
    · exact ⟨o, ho, hb, hne, hm⟩
  · exact h.congr (by rw [he])

/-- Letting go of the page lifts no block by anybody else. -/
theorem Blocks.without {l' : LockTable α} {r : LockRequest α} {b t : TxnId} (h : l.Blocks r b)
    (hb : b ≠ t) (he : l'.entries[r.page]? = l.entries[r.page]?.bind (·.without t)) :
    l'.Blocks r b := by
  obtain ⟨e, hentry, hmem, hne, hm⟩ := blocks_iff.1 h
  rw [hentry, Option.bind_some] at he
  rw [blocks_iff, he]
  cases hw : e.without t with
  | none => exact absurd (LockEntry.without_eq_none hw hmem) hb
  | some e' =>
    obtain ⟨hmode, hholders, -⟩ := LockEntry.without_eq_some hw
    exact ⟨e', rfl, (hholders b).2 ⟨hb, hmem⟩, hne, hm.imp_right fun h => hmode.trans h⟩

theorem Blocks.release {r : LockRequest α} {b t : TxnId} {p : PageId} (h : l.Blocks r b)
    (hb : b ≠ t) : (l.release t p).1.Blocks r b := by
  have he := getElem?_releaseEntry l.entries t p r.page
  by_cases hp : r.page = p
  · exact h.without hb (he.trans (if_pos hp))
  · exact h.congr (he.trans (if_neg hp))

theorem Blocks.releaseAll (hs : Safe l) {r : LockRequest α} {b t : TxnId} (h : l.Blocks r b)
    (hb : b ≠ t) : (l.releaseAll t).1.Blocks r b := by
  have he := entries_releaseAll hs t r.page
  by_cases hp : t ∈ l.holdersSet r.page
  · exact h.without hb (he.trans (if_pos hp))
  · exact h.congr (he.trans (if_neg hp))

/-- A refusal names the holders other than the requester. -/
theorem mem_refused {r : LockRequest α} {bs : List TxnId}
    (h : LockEntry.decide l.entries[r.page]? r.txn r.mode = .refuse bs) {b : TxnId} :
    b ∈ bs ↔ b ∈ l.holders r.page ∧ b ≠ r.txn := by
  obtain ⟨e, he, rfl, -⟩ := LockEntry.decide_refuse.1 h
  rw [LockEntry.mem_others, LockTable.mem_holders, mem_holdersSet]
  simp [he]

theorem exists_blocks (hs : Safe l) {r : LockRequest α} {bs : List TxnId}
    (h : LockEntry.decide l.entries[r.page]? r.txn r.mode = .refuse bs) : ∃ b, b ∈ bs := by
  obtain ⟨e, he, rfl, hsole, -⟩ := LockEntry.decide_refuse.1 h
  exact (hs.sound _ e he).exists_mem_others hsole

/-! ## A turn under cycle detection -/

/-- Nothing of `t` sleeps. -/
def Idle (l : LockTable α) (t : TxnId) : Prop :=
  ∀ (ticket : Ticket) (r : LockRequest α), l.sleepers[ticket]? = some r → r.txn ≠ t

/-- What a turn can come to: the request is granted; or it is refused and sleeps,
which closes no ring of recorded waits; or it would close one and fails. -/
theorem request_cycleDetection (hp : l.policy = .cycleDetection) (ticket : Ticket)
    (r : LockRequest α) (turn : Turn) :
    (∃ e, LockEntry.decide l.entries[r.page]? r.txn r.mode = .grant e ∧
      l.request ticket r turn = (l.grant ticket r turn e, .granted)) ∨
    ∃ bs, LockEntry.decide l.entries[r.page]? r.txn r.mode = .refuse bs ∧
      (((l.waits.setWaits r.txn bs).hasCycle = false ∧ l.request ticket r turn =
        ({ l with waits := l.waits.setWaits r.txn bs, sleepers := l.sleepers.insert ticket r },
          .asleep)) ∨
      ((l.waits.setWaits r.txn bs).hasCycle = true ∧ l.request ticket r turn =
        ({ l with waits := (l.waits.setWaits r.txn bs).removeWaiter r.txn
                  sleepers := l.sleepers.erase ticket }, .aborted))) := by
  unfold request
  cases hd : LockEntry.decide l.entries[r.page]? r.txn r.mode with
  | grant e => exact .inl ⟨e, rfl, rfl⟩
  | refuse bs =>
    refine .inr ⟨bs, rfl, ?_⟩
    simp only [refuse, hp]
    cases hc : (l.waits.setWaits r.txn bs).hasCycle with
    | false => exact .inl ⟨rfl, by simp⟩
    | true => exact .inr ⟨rfl, by simp⟩

instance (t : TxnId) : Decidable (l.Idle t) :=
  decidable_of_iff (∀ s ∈ l.sleepers.toList, s.2.txn ≠ t) <| by
    simp only [Prod.forall, Std.TreeMap.mem_toList_iff_getElem?_eq_some, Idle]

theorem mem_sleepersOn {on : PageId → Bool} {ticket : Ticket} {r : LockRequest α} :
    (ticket, r) ∈ l.sleepersOn on ↔ l.sleepers[ticket]? = some r ∧ on r.page = true := by
  simp [sleepersOn, Std.TreeMap.mem_toList_iff_getElem?_eq_some]

theorem getElem?_sleepers_insert (sleepers : Std.TreeMap Ticket (LockRequest α)) (ticket k : Ticket)
    (r : LockRequest α) :
    (sleepers.insert ticket r)[k]? = if k = ticket then some r else sleepers[k]? := by
  by_cases h : k = ticket
  · simp [h]
  · simp [Std.TreeMap.getElem?_insert, h, Ne.symm h]

theorem getElem?_sleepers_erase (sleepers : Std.TreeMap Ticket (LockRequest α)) (ticket k : Ticket) :
    (sleepers.erase ticket)[k]? = if k = ticket then none else sleepers[k]? := by
  by_cases h : k = ticket
  · simp [h]
  · simp [Std.TreeMap.getElem?_erase, h, Ne.symm h]

end LockTable
end PageStore
