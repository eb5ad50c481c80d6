import PageStore.Locking.LockTable

/-!
# The two sides of the lock table agree

A lock is written down twice: the page's entry lists its holders, and the
holder's set of pages lists the page. Requests, releases and the end of a
transaction each change both sides, at different places.

`act` is one thing that can happen to a lock table: a turn of any request (the
first one, a retry, the last one before it times out), the release of a page,
or the release of everything a transaction holds. `run` is any sequence of
them, by any transactions; nothing is asked of their order.

Results:
* `Safe.act`: every action keeps `Safe` (the entries are sound, and the two
  sides list the same locks).
* `safe_run`: so every reachable lock table is safe.
* `run_locks_agree`: what that says about the answers of the lock table, and
  what the end of a transaction does to its locks and to those of others.
-/
namespace PageStore

namespace LockEntry

/-- Somebody holds the entry, and only one does if the lock is exclusive. -/
structure Sound (e : LockEntry) : Prop where
  held : ∃ t, t ∈ e.holders
  sole : e.mode = .exclusive → ∀ t ∈ e.holders, ∀ u ∈ e.holders, t = u

/-- An entry with one holder has no other. -/
theorem eq_of_isSole {e : LockEntry} {t u : TxnId} (h : e.isSole t = true) (hu : u ∈ e.holders) :
    u = t := by
  simp only [isSole, Bool.and_eq_true, beq_iff_eq, Std.TreeSet.contains_iff_mem] at h
  have hl : e.holders.toList.length = 1 := by rw [Std.TreeSet.length_toList]; exact h.1
  obtain ⟨x, hx⟩ := List.length_eq_one_iff.1 hl
  have ht : t ∈ e.holders.toList := Std.TreeSet.mem_toList.2 h.2
  have hu' : u ∈ e.holders.toList := Std.TreeSet.mem_toList.2 hu
  rw [hx, List.mem_singleton] at ht hu'
  rw [ht, hu']

theorem mem_of_isSole {e : LockEntry} {t : TxnId} (h : e.isSole t = true) : t ∈ e.holders := by
  simp only [isSole, Bool.and_eq_true, Std.TreeSet.contains_iff_mem] at h
  exact h.2

/-- What a granted request makes of an entry: the requester joins its holders,
and is alone if it asked for an exclusive lock or keeps one. -/
theorem decide_grant {old : Option LockEntry} {t : TxnId} {mode : LockMode} {e : LockEntry}
    (h : decide old t mode = .grant e) :
    (∀ u, u ∈ e.holders ↔ u = t ∨ ∃ o, old = some o ∧ u ∈ o.holders) ∧
      (e.mode = .exclusive → ∀ u ∈ e.holders, u = t) ∧ (mode = .exclusive → e.mode = .exclusive) ∧
      (∀ o, old = some o → o.mode = .exclusive → e.mode = .exclusive) := by
  cases old with
  | none =>
    simp only [decide, Decision.grant.injEq] at h
    subst h
    refine ⟨fun u => ?_, fun _ u hu => ?_, fun hx => hx, fun _ ho => by cases ho⟩
    · simp [Std.TreeSet.mem_insert, Std.LawfulEqCmp.compare_eq_iff_eq, eq_comm (a := t)]
    · simpa [Std.TreeSet.mem_insert, Std.LawfulEqCmp.compare_eq_iff_eq, eq_comm (a := t)] using hu
  | some o =>
    have sole : o.isSole t = true →
        ∀ u, u ∈ o.holders ↔ u = t ∨ ∃ o', some o = some o' ∧ u ∈ o'.holders :=
      fun hs u => ⟨fun hu => .inl (eq_of_isSole hs hu), by
        rintro (rfl | ⟨o', ho, hu⟩)
        · exact mem_of_isSole hs
        · cases ho; exact hu⟩
    cases mode with
    | exclusive =>
      simp only [decide] at h
      split at h
      · next hs =>
        simp only [Decision.grant.injEq] at h
        subst h
        exact ⟨sole hs, fun _ u hu => eq_of_isSole hs hu, fun _ => rfl, fun _ _ _ => rfl⟩
      · cases h
    | shared =>
      cases hm : o.mode with
      | shared =>
        simp only [decide, hm, Decision.grant.injEq] at h
        subst h
        refine ⟨fun u => ?_, fun hx => ?_, fun hx => ?_, fun o' ho hx => ?_⟩
        · simp [Std.TreeSet.mem_insert, Std.LawfulEqCmp.compare_eq_iff_eq, eq_comm (a := t)]
        · cases hx
        · cases hx
        · cases ho; cases hm.symm.trans hx
      | exclusive =>
        simp only [decide, hm] at h
        split at h
        · next hs =>
          simp only [Decision.grant.injEq] at h
          subst h
          refine ⟨sole hs, fun _ u hu => eq_of_isSole hs hu, fun hx => ?_, fun _ _ _ => hm⟩
          cases hx
        · cases h

theorem Sound.decide {old : Option LockEntry} {t : TxnId} {mode : LockMode} {e : LockEntry}
    (h : LockEntry.decide old t mode = .grant e) : e.Sound := by
  obtain ⟨hmem, hsole, -, -⟩ := decide_grant h
  refine ⟨⟨t, (hmem t).2 (.inl rfl)⟩, fun hx u hu v hv => ?_⟩
  rw [hsole hx u hu, hsole hx v hv]

/-- What is left after `t` lets go: the other holders, in the same mode. -/
theorem without_eq_some {e e' : LockEntry} {t : TxnId} (h : e.without t = some e') :
    e'.mode = e.mode ∧ (∀ u, u ∈ e'.holders ↔ u ≠ t ∧ u ∈ e.holders) ∧ ∃ u, u ∈ e'.holders := by
  unfold without at h
  split at h
  · cases h
  · next he =>
    cases h
    refine ⟨rfl, fun u => ?_, ?_⟩
    · simp [Std.TreeSet.mem_erase, Std.LawfulEqCmp.compare_eq_iff_eq, eq_comm (a := t)]
    · have := Std.TreeSet.isEmpty_eq_false_iff_exists_mem.1 (Bool.not_eq_true _ ▸ he)
      exact this

/-- Nothing is left exactly when `t` was the only holder, if anyone was. -/
theorem without_eq_none {e : LockEntry} {t u : TxnId} (h : e.without t = none) (hu : u ∈ e.holders) :
    u = t := by
  unfold without at h
  split at h
  · next he =>
    have := Std.TreeSet.isEmpty_iff_forall_not_mem.1 he u
    simp only [Std.TreeSet.mem_erase, Std.LawfulEqCmp.compare_eq_iff_eq, hu, and_true, ne_eq,
      Decidable.not_not] at this
    exact this.symm
  · cases h

theorem Sound.without {e e' : LockEntry} (hs : e.Sound) {t : TxnId} (h : e.without t = some e') :
    e'.Sound := by
  obtain ⟨hm, hmem, hne⟩ := without_eq_some h
  refine ⟨hne, fun hx u hu v hv => ?_⟩
  exact hs.sole (hm ▸ hx) u ((hmem u).1 hu).2 v ((hmem v).1 hv).2

end LockEntry

namespace LockTable

variable {α : Type} {l : LockTable α}

/-! ## Locks from either side -/

theorem mem_holdersSet {t : TxnId} {p : PageId} :
    t ∈ l.holdersSet p ↔ ∃ e, l.entries[p]? = some e ∧ t ∈ e.holders := by
  unfold holdersSet
  cases l.entries[p]? <;> simp

theorem mem_holders {t : TxnId} {p : PageId} : t ∈ l.holders p ↔ t ∈ l.holdersSet p :=
  Std.TreeSet.mem_toList

theorem mem_lockedPages {t : TxnId} {p : PageId} : p ∈ l.lockedPages t ↔ p ∈ l.pagesSet t :=
  Std.TreeSet.mem_toList

theorem holds_iff {t : TxnId} {p : PageId} : l.holds t p = true ↔ t ∈ l.holdersSet p :=
  Std.TreeSet.contains_iff_mem

theorem nodup_of_distinct {κ : Type} [Ord κ] [Std.TransOrd κ] (s : Std.TreeSet κ) : s.toList.Nodup :=
  Std.TreeSet.distinct_toList.imp fun h he => h (by rw [he]; exact Std.ReflCmp.compare_self)

theorem eq_singleton_of_nodup {κ : Type} {ks : List κ} {k : κ} (hn : ks.Nodup) (hk : k ∈ ks)
    (h : ∀ x ∈ ks, x = k) : ks = [k] := by
  match ks, hn, hk, h with
  | [x], _, _, h => rw [h x (List.mem_singleton.2 rfl)]
  | x :: y :: _, hn, _, h =>
    have hxy : x = y := (h x (by simp)).trans (h y (by simp)).symm
    exact absurd (by simp [hxy]) (List.nodup_cons.1 hn).1

/-- Every entry is sound, and a transaction has a page exactly when the page
has the transaction. -/
structure Safe (l : LockTable α) : Prop where
  sound : ∀ (p : PageId) (e : LockEntry), l.entries[p]? = some e → e.Sound
  mirror : ∀ (t : TxnId) (p : PageId), p ∈ l.pagesSet t ↔ t ∈ l.holdersSet p

theorem safe_new (policy : DeadlockPolicy) : Safe (new policy : LockTable α) := by
  refine ⟨fun p e h => ?_, fun t p => ?_⟩
  · simp [new] at h
  · simp [new, pagesSet, holdersSet, Std.TreeMap.getD_eq_getD_getElem?]

/-! ## Requests -/

theorem pagesSet_grant (l : LockTable α) (ticket : Ticket) (r : LockRequest α) (turn : Turn)
    (e : LockEntry) (t : TxnId) :
    (l.grant ticket r turn e).pagesSet t =
      if t = r.txn then (l.pagesSet r.txn).insert r.page else l.pagesSet t := by
  simp only [grant, pagesSet, Std.TreeMap.getD_insert, Std.LawfulEqCmp.compare_eq_iff_eq]
  by_cases h : t = r.txn
  · simp [h]
  · simp [h, Ne.symm h]

theorem entries_grant (l : LockTable α) (ticket : Ticket) (r : LockRequest α) (turn : Turn)
    (e : LockEntry) (p : PageId) :
    (l.grant ticket r turn e).entries[p]? = if p = r.page then some e else l.entries[p]? := by
  simp only [grant, Std.TreeMap.getElem?_insert, Std.LawfulEqCmp.compare_eq_iff_eq]
  by_cases h : p = r.page
  · simp [h]
  · simp [h, Ne.symm h]

theorem held_refuse (l : LockTable α) (ticket : Ticket) (r : LockRequest α) (turn : Turn)
    (blockers : List TxnId) : (l.refuse ticket r turn blockers).1.held = l.held := by
  unfold refuse
  split
  · dsimp only
    split <;> rfl
  · split <;> rfl

/-- A request either is granted by its entry or changes no lock. -/
theorem request_cases (l : LockTable α) (ticket : Ticket) (r : LockRequest α) (turn : Turn) :
    (∃ e, LockEntry.decide l.entries[r.page]? r.txn r.mode = .grant e ∧
      l.request ticket r turn = (l.grant ticket r turn e, .granted)) ∨
    ((l.request ticket r turn).2 ≠ .granted ∧
      (l.request ticket r turn).1.entries = l.entries ∧ (l.request ticket r turn).1.held = l.held) := by
  unfold request
  split
  · next e h => exact .inl ⟨e, h, rfl⟩
  · next blockers h =>
    refine .inr ⟨?_, entries_refuse .., held_refuse ..⟩
    unfold refuse
    split
    · dsimp only
      split <;> simp
    · split <;> simp

theorem Safe.of_tables {l l' : LockTable α} (hs : Safe l) (he : l'.entries = l.entries)
    (hh : l'.held = l.held) : Safe l' := by
  refine ⟨fun p e h => hs.sound p e (he ▸ h), fun t p => ?_⟩
  have := hs.mirror t p
  simpa only [pagesSet, holdersSet, he, hh] using this

theorem Safe.request (hs : Safe l) (ticket : Ticket) (r : LockRequest α) (turn : Turn) :
    Safe (l.request ticket r turn).1 := by
  rcases request_cases l ticket r turn with ⟨e, hd, hg⟩ | ⟨-, he, hh⟩
  · rw [hg]
    obtain ⟨hmem, -, -, -⟩ := LockEntry.decide_grant hd
    refine ⟨fun p e' h => ?_, fun t p => ?_⟩
    · rw [entries_grant] at h
      split at h
      · cases h; exact LockEntry.Sound.decide hd
      · exact hs.sound p e' h
    · have hm := hs.mirror t p
      simp only [pagesSet_grant, mem_holdersSet, entries_grant] at hm ⊢
      by_cases hp : p = r.page
      · subst hp
        simp only [if_true, Option.some.injEq, exists_eq_left', hmem]
        by_cases ht : t = r.txn
        · simp [ht, Std.TreeSet.mem_insert]
        · simp only [ht, if_false, false_or]; exact hm
      · simp only [hp, if_false]
        by_cases ht : t = r.txn
        · subst ht
          simp only [if_true, Std.TreeSet.mem_insert, Std.LawfulEqCmp.compare_eq_iff_eq,
            Ne.symm hp, false_or]
          exact hm
        · simp only [ht, if_false]; exact hm
  · exact hs.of_tables he hh

/-! ## Releases -/

theorem getElem?_releaseEntry (entries : Std.TreeMap PageId LockEntry) (t : TxnId) (p q : PageId) :
    (releaseEntry entries t p)[q]? =
      if q = p then entries[q]?.bind (·.without t) else entries[q]? := by
  unfold releaseEntry
  by_cases hq : q = p
  · subst hq
    cases he : entries[q]? with
    | none => simp [he]
    | some e => cases hw : e.without t <;> simp [hw]
  · simp only [hq, if_false]
    split
    · rfl
    · split <;> simp [Std.TreeMap.getElem?_insert, Std.TreeMap.getElem?_erase, Ne.symm hq]

theorem getD_releaseHeld (held : Std.TreeMap TxnId (Std.TreeSet PageId)) (t u : TxnId)
    (p q : PageId) :
    q ∈ (releaseHeld held t p).getD u ∅ ↔ q ∈ held.getD u ∅ ∧ ¬(u = t ∧ q = p) := by
  unfold releaseHeld
  dsimp only
  by_cases hu : u = t
  · subst hu
    split
    · next he =>
      have := Std.TreeSet.isEmpty_iff_forall_not_mem.1 he q
      simp only [Std.TreeSet.mem_erase, Std.LawfulEqCmp.compare_eq_iff_eq, ne_eq] at this
      simp only [Std.TreeMap.getD_erase_self, Std.TreeSet.not_mem_emptyc, true_and, false_iff]
      rintro ⟨h1, h2⟩
      exact this ⟨Ne.symm h2, h1⟩
    · simp only [Std.TreeMap.getD_insert_self, Std.TreeSet.mem_erase,
        Std.LawfulEqCmp.compare_eq_iff_eq, ne_eq, true_and, eq_comm (a := p)]
      exact and_comm
  · split <;> simp [Std.TreeMap.getD_erase, Std.TreeMap.getD_insert, hu, Ne.symm hu]

/-- The holders of a page whose entry lost `t`. -/
theorem mem_without {entries : Option LockEntry} {t u : TxnId} :
    (∃ e', (entries.bind (·.without t)) = some e' ∧ u ∈ e'.holders) ↔
      u ≠ t ∧ ∃ e, entries = some e ∧ u ∈ e.holders := by
  cases entries with
  | none => simp
  | some e =>
    simp only [Option.bind_some, Option.some.injEq, exists_eq_left']
    cases hw : e.without t with
    | none =>
      simp only [reduceCtorEq, false_and, exists_false, false_iff]
      rintro ⟨hne, hu⟩
      exact hne (LockEntry.without_eq_none hw hu)
    | some e' =>
      simp only [Option.some.injEq, exists_eq_left']
      exact (LockEntry.without_eq_some hw).2.1 u

theorem sound_without {entry : Option LockEntry} (hs : ∀ e, entry = some e → e.Sound) {t : TxnId}
    {e' : LockEntry} (h : entry.bind (·.without t) = some e') : e'.Sound := by
  obtain ⟨e, he, hw⟩ := Option.bind_eq_some_iff.1 h
  exact (hs e he).without hw

theorem Safe.release (hs : Safe l) (t : TxnId) (p : PageId) : Safe (l.release t p).1 := by
  refine ⟨fun q e h => ?_, fun u q => ?_⟩
  · simp only [LockTable.release, getElem?_releaseEntry] at h
    split at h
    · exact sound_without (hs.sound q) h
    · exact hs.sound q e h
  · have hm := hs.mirror u q
    simp only [mem_holdersSet] at hm ⊢
    simp only [LockTable.release, pagesSet, getD_releaseHeld, getElem?_releaseEntry] at hm ⊢
    by_cases hq : q = p
    · subst hq
      simp only [if_true, mem_without, ← hm, and_true]
      exact and_comm
    · simp only [hq, if_false, and_false, not_false_eq_true, and_true]; exact hm

/-- Letting go of pages one after another concerns exactly those pages. -/
theorem getElem?_foldl_releaseEntry (t : TxnId) (q : PageId) :
    ∀ (ps : List PageId), ps.Nodup → ∀ entries : Std.TreeMap PageId LockEntry,
      (ps.foldl (releaseEntry · t ·) entries)[q]? =
        if q ∈ ps then entries[q]?.bind (·.without t) else entries[q]?
  | [], _, entries => by simp
  | p :: ps, hn, entries => by
    obtain ⟨hp, hn⟩ := List.nodup_cons.1 hn
    rw [List.foldl_cons, getElem?_foldl_releaseEntry t q ps hn, getElem?_releaseEntry]
    by_cases hq : q = p
    · subst hq; simp [hp]
    · simp [hq]

/-- Every entry after the end of `t`, which held exactly the pages listed for it. -/
theorem entries_releaseAll (hs : Safe l) (t : TxnId) (p : PageId) :
    (l.releaseAll t).1.entries[p]? =
      if t ∈ l.holdersSet p then l.entries[p]?.bind (·.without t) else l.entries[p]? := by
  have h := getElem?_foldl_releaseEntry t p (l.lockedPages t) (nodup_of_distinct _) l.entries
  simp only [mem_lockedPages, hs.mirror] at h
  exact h

theorem mem_holdersSet_releaseAll (hs : Safe l) {t u : TxnId} {p : PageId} :
    u ∈ (l.releaseAll t).1.holdersSet p ↔ u ≠ t ∧ u ∈ l.holdersSet p := by
  rw [mem_holdersSet, entries_releaseAll hs]
  split
  · rw [mem_without, mem_holdersSet]
  · next ht =>
    rw [← mem_holdersSet]
    exact ⟨fun hu => ⟨fun he => ht (he ▸ hu), hu⟩, And.right⟩

theorem pagesSet_releaseAll (l : LockTable α) (t u : TxnId) :
    (l.releaseAll t).1.pagesSet u = if u = t then ∅ else l.pagesSet u := by
  simp only [releaseAll, pagesSet, Std.TreeMap.getD_erase, Std.LawfulEqCmp.compare_eq_iff_eq]
  by_cases h : u = t
  · simp [h]
  · simp [h, Ne.symm h]

theorem Safe.releaseAll (hs : Safe l) (t : TxnId) : Safe (l.releaseAll t).1 := by
  refine ⟨fun p e h => ?_, fun u p => ?_⟩
  · rw [entries_releaseAll hs] at h
    split at h
    · exact sound_without (hs.sound p) h
    · exact hs.sound p e h
  · rw [mem_holdersSet_releaseAll hs, pagesSet_releaseAll, ← hs.mirror]
    by_cases hu : u = t <;> simp [hu]

/-- The mode of a page that somebody else holds outlives the end of `t`. -/
theorem modeOf_releaseAll (hs : Safe l) {t u : TxnId} {p : PageId} (hu : u ≠ t)
    (h : u ∈ l.holdersSet p) : (l.releaseAll t).1.modeOf? p = l.modeOf? p := by
  obtain ⟨e, he, hue⟩ := mem_holdersSet.1 h
  simp only [modeOf?, entries_releaseAll hs]
  split
  · cases hw : e.without t with
    | none => exact absurd (LockEntry.without_eq_none hw hue) hu
    | some e' => simp [he, hw, (LockEntry.without_eq_some hw).1]
  · rfl

/-! ## Runs -/

/-- Something that can happen to a lock table. -/
inductive Action (α : Type)
  | request (ticket : Ticket) (r : LockRequest α) (turn : Turn)
  | release (t : TxnId) (p : PageId)
  | releaseAll (t : TxnId)

def act (l : LockTable α) : Action α → LockTable α
  | .request ticket r turn => (l.request ticket r turn).1
  | .release t p => (l.release t p).1
  | .releaseAll t => (l.releaseAll t).1

def run (l : LockTable α) (actions : List (Action α)) : LockTable α := actions.foldl act l

theorem Safe.act (hs : Safe l) : ∀ a, Safe (l.act a)
  | .request ticket r turn => hs.request ticket r turn
  | .release t p => hs.release t p
  | .releaseAll t => hs.releaseAll t

theorem safe_run (actions : List (Action α)) (hs : Safe l) : Safe (l.run actions) := by
  induction actions generalizing l with
  | nil => exact hs
  | cons a actions ih => exact ih (hs.act a)

/-- In every lock table that any actions lead to from a new one: an exclusive
lock has one holder, a page with a lock has a holder, and a transaction has a
page exactly when the page has it. So when a transaction lets go of everything,
it holds nothing, and the locks of all others stay as they are. -/
theorem run_locks_agree (policy : DeadlockPolicy) (actions : List (Action α)) :
    let l := (new policy).run actions
    (∀ p, l.modeOf? p = some .exclusive → ∃ t, l.holders p = [t]) ∧
    (∀ p, l.entries.contains p = true → l.holders p ≠ []) ∧
    (∀ t p, p ∈ l.lockedPages t ↔ t ∈ l.holders p) ∧
    ∀ t, let l' := (l.releaseAll t).1
      l'.lockedPages t = [] ∧ (∀ p, t ∉ l'.holders p) ∧
      ∀ u, u ≠ t → l'.lockedPages u = l.lockedPages u ∧
        ∀ p, (u ∈ l'.holders p ↔ u ∈ l.holders p) ∧
          (u ∈ l.holders p → l'.modeOf? p = l.modeOf? p) := by
  intro l
  have hs : Safe l := safe_run actions (safe_new policy)
  refine ⟨?_, ?_, ?_, ?_⟩
  · intro p hp
    obtain ⟨e, he, hm⟩ := Option.map_eq_some_iff.1 hp
    have hsound := hs.sound p e he
    obtain ⟨t, ht⟩ := hsound.held
    have hmem : t ∈ l.holders p := mem_holders.2 (mem_holdersSet.2 ⟨e, he, ht⟩)
    have hall : ∀ u ∈ l.holders p, u = t := by
      intro u hu
      obtain ⟨e', he', hu'⟩ := mem_holdersSet.1 (mem_holders.1 hu)
      cases he.symm.trans he'
      exact hsound.sole hm u hu' t ht
    exact ⟨t, eq_singleton_of_nodup (nodup_of_distinct _) hmem hall⟩
  · intro p hp
    rw [Std.TreeMap.contains_eq_isSome_getElem?, Option.isSome_iff_exists] at hp
    obtain ⟨e, he⟩ := hp
    obtain ⟨t, ht⟩ := (hs.sound p e he).held
    exact List.ne_nil_of_mem (mem_holders.2 (mem_holdersSet.2 ⟨e, he, ht⟩))
  · intro t p
    rw [mem_lockedPages, mem_holders]
    exact hs.mirror t p
  · intro t
    refine ⟨?_, ?_, ?_⟩
    · simp only [lockedPages, pagesSet_releaseAll, if_true]
      rfl
    · intro p
      rw [mem_holders, mem_holdersSet_releaseAll hs]
      simp
    · intro u hu
      refine ⟨?_, ?_⟩
      · simp only [lockedPages, pagesSet_releaseAll, hu, if_false]
      · intro p
        refine ⟨?_, ?_⟩
        · rw [mem_holders, mem_holders, mem_holdersSet_releaseAll hs]
          simp [hu]
        · intro h
          exact modeOf_releaseAll hs hu (mem_holders.1 h)

end LockTable
end PageStore
