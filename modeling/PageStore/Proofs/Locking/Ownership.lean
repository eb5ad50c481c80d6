import PageStore.Proofs.Locking.Safety

/-!
# Exclusive locks outlive what others do

A transaction owns a page if it holds the page exclusively. Requests take
ownership from nobody, and neither does the end of another transaction.

Results:
* `owns_of_granted`: a granted exclusive request makes an owner.
* `granted_of_alone`: where nobody else holds anything, every request is granted.
* `Owns.request`, `Owns.releaseAll`: an owner stays one until its own end.
* `Owns.eq_of_holds`: nobody else holds an owned page.
* `holds_of_granted`, `holds_request`, `holds_releaseAll`: the same for those
  who hold a page in any mode.
-/
namespace PageStore.LockTable

variable {α : Type} {l : LockTable α} {t u : TxnId} {p : PageId}

/-- `t` holds the page exclusively. -/
def Owns (l : LockTable α) (t : TxnId) (p : PageId) : Prop :=
  l.modeOf? p = some .exclusive ∧ l.holds t p = true

theorem owns_iff : l.Owns t p ↔ ∃ e, l.entries[p]? = some e ∧ e.mode = .exclusive ∧ t ∈ e.holders := by
  rw [Owns, holds_iff, mem_holdersSet, modeOf?]
  cases l.entries[p]? <;> simp

theorem Owns.eq_of_holds (hs : Safe l) (ht : l.Owns t p) (hu : l.holds u p = true) : u = t := by
  obtain ⟨e, he, hm, hte⟩ := owns_iff.1 ht
  obtain ⟨e', he', hue⟩ := mem_holdersSet.1 (holds_iff.1 hu)
  rw [he] at he'
  cases he'
  exact (hs.sound p e he).sole hm u hue t hte

theorem Owns.eq (hs : Safe l) (ht : l.Owns t p) (hu : l.Owns u p) : u = t :=
  ht.eq_of_holds hs hu.2

theorem owns_of_granted {ticket : Ticket} {r : LockRequest α} {turn : Turn}
    (h : (l.request ticket r turn).2 = .granted) (hr : r.mode = .exclusive) :
    (l.request ticket r turn).1.Owns r.txn r.page := by
  rcases request_cases l ticket r turn with ⟨e, hd, hg⟩ | ⟨hn, -, -⟩
  · obtain ⟨hmem, -, hx, -⟩ := LockEntry.decide_grant hd
    rw [hg, owns_iff]
    exact ⟨e, by rw [entries_grant, if_pos rfl], hx hr, (hmem _).2 (.inl rfl)⟩
  · exact absurd h hn

/-- Somebody whom no other holder is in the way of is granted every request. -/
theorem granted_of_alone (hs : Safe l) (h : ∀ u, l.holds u p = true → u = t) (ticket : Ticket)
    (mode : LockMode) (purpose : α) (turn : Turn) :
    (l.request ticket ⟨t, p, mode, purpose⟩ turn).2 = .granted := by
  have hd : ∃ e, LockEntry.decide l.entries[p]? t mode = .grant e := by
    cases he : l.entries[p]? with
    | none => exact ⟨_, rfl⟩
    | some e =>
      have hall : ∀ u ∈ e.holders.toList, u = t := by
        intro u hu
        exact h u (holds_iff.2 (mem_holdersSet.2 ⟨e, he, Std.TreeSet.mem_toList.1 hu⟩))
      obtain ⟨u, hu⟩ := (hs.sound p e he).held
      obtain rfl := hall u (Std.TreeSet.mem_toList.2 hu)
      have hlist := eq_singleton_of_nodup (nodup_of_distinct _) (Std.TreeSet.mem_toList.2 hu) hall
      have hsole : e.isSole u = true := by
        rw [LockEntry.isSole, ← Std.TreeSet.length_toList, hlist]
        simpa using hu
      unfold LockEntry.decide
      dsimp only
      split
      · exact ⟨_, rfl⟩
      · exact ⟨_, if_pos hsole⟩
      · exact ⟨_, if_pos hsole⟩
  obtain ⟨e, he⟩ := hd
  unfold request
  rw [he]

theorem Owns.request (h : l.Owns t p) (ticket : Ticket) (r : LockRequest α) (turn : Turn) :
    (l.request ticket r turn).1.Owns t p := by
  obtain ⟨o, ho, hm, ht⟩ := owns_iff.1 h
  rw [owns_iff]
  rcases request_cases l ticket r turn with ⟨e, hd, hg⟩ | ⟨-, he, -⟩
  · rw [hg]
    simp only [entries_grant]
    split
    · next hp =>
      subst hp
      obtain ⟨hmem, -, -, hx⟩ := LockEntry.decide_grant hd
      exact ⟨e, rfl, hx o ho hm, (hmem t).2 (.inr ⟨o, ho, ht⟩)⟩
    · exact ⟨o, ho, hm, ht⟩
  · rw [he]
    exact ⟨o, ho, hm, ht⟩

theorem holds_of_granted {ticket : Ticket} {r : LockRequest α} {turn : Turn}
    (h : (l.request ticket r turn).2 = .granted) :
    (l.request ticket r turn).1.holds r.txn r.page = true := by
  rcases request_cases l ticket r turn with ⟨e, hd, hg⟩ | ⟨hn, -, -⟩
  · rw [hg, holds_iff, mem_holdersSet]
    exact ⟨e, by rw [entries_grant, if_pos rfl], ((LockEntry.decide_grant hd).1 _).2 (.inl rfl)⟩
  · exact absurd h hn

theorem holds_request (h : l.holds t p = true) (ticket : Ticket) (r : LockRequest α) (turn : Turn) :
    (l.request ticket r turn).1.holds t p = true := by
  obtain ⟨o, ho, ht⟩ := mem_holdersSet.1 (holds_iff.1 h)
  rw [holds_iff, mem_holdersSet]
  rcases request_cases l ticket r turn with ⟨e, hd, hg⟩ | ⟨-, he, -⟩
  · rw [hg]
    simp only [entries_grant]
    split
    · next hp =>
      subst hp
      exact ⟨e, rfl, ((LockEntry.decide_grant hd).1 t).2 (.inr ⟨o, ho, ht⟩)⟩
    · exact ⟨o, ho, ht⟩
  · rw [he]
    exact ⟨o, ho, ht⟩

theorem holds_releaseAll (hs : Safe l) (h : l.holds t p = true) (hu : t ≠ u) :
    (l.releaseAll u).1.holds t p = true := by
  rw [holds_iff, mem_holdersSet_releaseAll hs]
  exact ⟨hu, holds_iff.1 h⟩

theorem Owns.releaseAll (hs : Safe l) (h : l.Owns t p) (hu : t ≠ u) : (l.releaseAll u).1.Owns t p := by
  have ht := holds_iff.1 h.2
  refine ⟨?_, ?_⟩
  · rw [modeOf_releaseAll hs hu ht]
    exact h.1
  · rw [holds_iff, mem_holdersSet_releaseAll hs]
    exact ⟨hu, ht⟩

end PageStore.LockTable
