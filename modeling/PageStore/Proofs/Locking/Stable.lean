import PageStore.Proofs.Locking.Safety

/-!
# Granted locks are stable

What a transaction holds, only the transaction itself gives up. A request of
anybody either joins the holders of a page or leaves the entry alone, and an
exclusive lock that is requested again stays exclusive; a release takes one
name from the holders, and never changes the mode.

No invariant is needed for this: it is true of every single action on every
lock table, reachable or not.

Results:
* `Kept.act`: one action keeps what a transaction holds, unless it is its own release.
* `granted_locks_are_stable`: the same for every run.
-/
namespace PageStore.LockTable

variable {α : Type} {l : LockTable α} {t u : TxnId} {p q : PageId} {old recent : Option LockEntry}

/-! ## One entry -/

/-- What `t` has in the old entry of a page, it has in the recent one: it is
still a holder, and an exclusive lock is still exclusive. -/
def Kept (t : TxnId) (old recent : Option LockEntry) : Prop :=
  ∀ e, old = some e → t ∈ e.holders →
    ∃ e', recent = some e' ∧ t ∈ e'.holders ∧ (e.mode = .exclusive → e'.mode = .exclusive)

theorem Kept.refl (t : TxnId) (entry : Option LockEntry) : Kept t entry entry :=
  fun e he ht => ⟨e, he, ht, id⟩

theorem Kept.trans {last : Option LockEntry} (h : Kept t old recent) (h' : Kept t recent last) :
    Kept t old last := by
  intro e he ht
  obtain ⟨e', he', ht', hm'⟩ := h e he ht
  obtain ⟨e'', he'', ht'', hm''⟩ := h' e' he' ht'
  exact ⟨e'', he'', ht'', fun hm => hm'' (hm' hm)⟩

/-- A granted request adds a holder, and leaves an exclusive lock exclusive. -/
theorem Kept.granted {mode : LockMode} {e : LockEntry} (h : LockEntry.decide old u mode = .grant e)
    (t : TxnId) : Kept t old (some e) := by
  obtain ⟨hmem, -, -, hmode⟩ := LockEntry.decide_grant h
  intro o ho ht
  exact ⟨e, rfl, (hmem t).2 (.inr ⟨o, ho, ht⟩), hmode o ho⟩

/-- Whoever lets go takes away no name but its own. -/
theorem Kept.without (hu : u ≠ t) (entry : Option LockEntry) :
    Kept t entry (entry.bind (·.without u)) := by
  intro e he ht
  subst he
  cases hw : e.without u with
  | none => exact absurd (LockEntry.without_eq_none hw ht).symm hu
  | some e' =>
    obtain ⟨hmode, hmem, -⟩ := LockEntry.without_eq_some hw
    exact ⟨e', hw, (hmem t).2 ⟨hu.symm, ht⟩, fun hm => hmode.trans hm⟩

theorem Kept.releaseEntry (entries : Std.TreeMap PageId LockEntry) (h : ¬(u = t ∧ q = p)) :
    Kept t entries[p]? (releaseEntry entries u q)[p]? := by
  rw [getElem?_releaseEntry]
  split
  · next hp =>
    have hu : u ≠ t := fun hu => h ⟨hu, hp.symm⟩
    exact .without hu _
  · exact .refl t _

theorem Kept.releaseEach (hu : u ≠ t) (p : PageId) :
    ∀ (ps : List PageId) (entries : Std.TreeMap PageId LockEntry),
      Kept t entries[p]? (ps.foldl (LockTable.releaseEntry · u ·) entries)[p]?
  | [], _ => .refl t _
  | _ :: ps, entries => (Kept.releaseEntry entries (fun h => hu h.1)).trans (releaseEach hu p ps _)

/-! ## One action -/

/-- The actions by which `t` gives up its lock on the page. -/
def Action.LetsGo (t : TxnId) (p : PageId) : Action α → Prop
  | .request .. => False
  | .release u q => u = t ∧ q = p
  | .releaseAll u => u = t

instance (t : TxnId) (p : PageId) : ∀ a : Action α, Decidable (a.LetsGo t p)
  | .request .. => inferInstanceAs (Decidable False)
  | .release u q => inferInstanceAs (Decidable (u = t ∧ q = p))
  | .releaseAll u => inferInstanceAs (Decidable (u = t))

theorem Kept.request (l : LockTable α) (ticket : Ticket) (r : LockRequest α) (turn : Turn)
    (t : TxnId) (p : PageId) : Kept t l.entries[p]? (l.request ticket r turn).1.entries[p]? := by
  rcases request_cases l ticket r turn with ⟨e, hd, hg⟩ | ⟨-, he, -⟩
  · rw [hg, entries_grant]
    split
    · next hp => exact hp ▸ .granted hd t
    · exact .refl t _
  · rw [he]
    exact .refl t _

/-- Whatever anybody does, short of `t` giving up its lock itself. -/
theorem Kept.act (l : LockTable α) : ∀ {a : Action α}, ¬a.LetsGo t p →
    Kept t l.entries[p]? (l.act a).entries[p]?
  | .request ticket r turn, _ => .request l ticket r turn t p
  | .release _ _, h => .releaseEntry l.entries h
  | .releaseAll u, h => .releaseEach h p (l.lockedPages u) l.entries

/-! ## Runs -/

theorem Kept.run : ∀ (actions : List (Action α)) (l : LockTable α),
    (∀ a ∈ actions, ¬a.LetsGo t p) → Kept t l.entries[p]? (l.run actions).entries[p]?
  | [], _, _ => .refl t _
  | a :: actions, l, h =>
    (Kept.act l (h a (by simp))).trans
      (Kept.run actions (l.act a) fun b hb => h b (by simp [hb]))

/-- At any point of any run, let `t` hold a page. Whatever happens from there on
— requests of anybody with any turns, granted, refused, or failing, and all
releases but those by which `t` gives up this very lock — `t` still holds the
page, and holds it exclusively if it did. -/
theorem granted_locks_are_stable (policy : DeadlockPolicy) (before after : List (Action α))
    (t : TxnId) (p : PageId) :
    let l := (new policy).run before
    let l' := l.run after
    t ∈ l.holders p → (∀ a ∈ after, ¬a.LetsGo t p) →
      t ∈ l'.holders p ∧ p ∈ l'.lockedPages t ∧
        (l.modeOf? p = some .exclusive → l'.modeOf? p = some .exclusive ∧ l'.holders p = [t]) := by
  intro l l' ht hkeep
  have hsafe : Safe l' := safe_run after (safe_run before (safe_new policy))
  obtain ⟨e, he, hte⟩ := mem_holdersSet.1 (mem_holders.1 ht)
  obtain ⟨e', he', hte', hmode⟩ := Kept.run after l hkeep e he hte
  have ht' : t ∈ l'.holdersSet p := mem_holdersSet.2 ⟨e', he', hte'⟩
  refine ⟨mem_holders.2 ht', mem_lockedPages.2 ((hsafe.mirror t p).2 ht'), ?_⟩
  intro hx
  have hx' : e'.mode = .exclusive := by
    rw [modeOf?, he] at hx
    exact hmode (Option.some.inj hx)
  refine ⟨by rw [modeOf?, he', Option.map_some, hx'], ?_⟩
  refine eq_singleton_of_nodup (nodup_of_distinct _) (mem_holders.2 ht') ?_
  intro u hu
  obtain ⟨e₂, he₂, hu⟩ := mem_holdersSet.1 (mem_holders.1 hu)
  cases he'.symm.trans he₂
  exact (hsafe.sound p e' he').sole hx' u hu t hte'

/-- Transaction 1 owns the first page of a table and 2 owns the second; 3 wants
to read the first, 1 wants the second, and 2 fails for a ring when it wants the first. -/
def contention : List (Action Unit) :=
  let p : PageId := ⟨.numbered 1, 0⟩
  let q : PageId := ⟨.numbered 1, 1⟩
  [.request 2 ⟨3, p, .shared, ()⟩ .first, .request 3 ⟨1, q, .exclusive, ()⟩ .first,
    .request 4 ⟨2, p, .exclusive, ()⟩ .first, .request 5 ⟨1, p, .shared, ()⟩ .first,
    .request 2 ⟨3, p, .shared, ()⟩ .woken, .releaseAll 2, .request 3 ⟨1, q, .exclusive, ()⟩ .woken,
    .release 1 q, .release 3 p, .releaseAll 3]

theorem granted_locks_are_stable_contention :
    let l : LockTable Unit := (new .cycleDetection).run
      [.request 0 ⟨1, ⟨.numbered 1, 0⟩, .exclusive, ()⟩ .first,
        .request 1 ⟨2, ⟨.numbered 1, 1⟩, .exclusive, ()⟩ .first]
    ((l.run (contention.take 2)).request 4 ⟨2, ⟨.numbered 1, 0⟩, .exclusive, ()⟩ .first).2 =
        .aborted ∧
      (l.run contention).holders ⟨.numbered 1, 0⟩ = [1] := by
  intro l
  obtain ⟨-, -, hx⟩ := granted_locks_are_stable .cycleDetection
    [.request 0 ⟨1, ⟨.numbered 1, 0⟩, .exclusive, ()⟩ .first,
      .request 1 ⟨2, ⟨.numbered 1, 1⟩, .exclusive, ()⟩ .first]
    contention 1 ⟨.numbered 1, 0⟩ (by decide +kernel) (by decide +kernel)
  exact ⟨by decide +kernel, (hx (by decide +kernel)).2⟩

end PageStore.LockTable
