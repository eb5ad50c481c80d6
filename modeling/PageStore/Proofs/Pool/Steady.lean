import PageStore.Proofs.Pool.Serving

/-!
# What others do is not seen by whoever holds a page

A transaction that holds a page, in whatever mode, keeps it until it ends, and
as long as it does nobody else owns the page. So between two states of an
engine a page is `Steady` for a transaction: if it held the page, it still
does, and finds on it what it found before, however often the page was written
back, left the cache and was read again.

Results:
* `Served.steady`: a granted request is steady for everybody, unless it changes
  the very page for the very transaction.
* `steady_keepChanges`, `steady_dropChanges`: so is the end of another
  transaction, and a commit that breaks off.
* `Flushed.steady`, `steady_discard`: pages may be written back and dropped.
-/
namespace PageStore.Engine

/-- If `t` holds the page, it still does, and the page shows what it showed. -/
def Steady (e e' : Engine) (t : TxnId) (p : PageId) : Prop :=
  e.pool.locks.holds t p = true →
    e'.pool.locks.holds t p = true ∧ ∀ g, e.content? p = some g → e'.content? p = some g

variable {e e' : Engine} {t u : TxnId} {p q : PageId}

theorem Steady.refl (e : Engine) (t : TxnId) (p : PageId) : Steady e e t p :=
  fun h => ⟨h, fun _ hg => hg⟩

theorem Steady.trans {a b c : Engine} (h1 : Steady a b t p) (h2 : Steady b c t p) :
    Steady a c t p := by
  intro h
  obtain ⟨hb, hg1⟩ := h1 h
  obtain ⟨hc, hg2⟩ := h2 hb
  exact ⟨hc, fun g hg => hg2 g (hg1 g hg)⟩

/-- Locks stay, and so does the content of the page. -/
theorem Steady.of_content (hl : e'.pool.locks = e.pool.locks) (hc : e'.content? p = e.content? p) :
    Steady e e' t p := by
  intro h
  rw [hl, hc]
  exact ⟨h, fun _ hg => hg⟩

theorem steady_withLocks {locks : LockTable Purpose}
    (h : e.pool.locks.holds t p = true → locks.holds t p = true) : Steady e (e.withLocks locks) t p :=
  fun hh => ⟨h hh, fun _ hg => hg⟩

theorem steady_request (e : Engine) (ticket : Ticket) (r : LockRequest Purpose) (which : Turn)
    (t : TxnId) (p : PageId) : Steady e (e.withLocks (e.pool.locks.request ticket r which).1) t p :=
  steady_withLocks fun h => LockTable.holds_request h ticket r which

theorem Turnover.steady (hc : Coherent e) (h : Turnover e e') : Steady e e' t p :=
  .of_content h.rules.locks (content_turnover hc.toBacked h p)

theorem Flushed.steady (h : Flushed e e') : Steady e e' t p :=
  .of_content h.rules.locks (h.content p)

/-! ## Changes of pages -/

/-- A page that `u` owns, or one that nobody has seen yet, enters the cache as
`u` changed it. Whoever holds a page and is not `u` sees nothing of it. -/
theorem Entered.steady (hc : Coherent e) {page : Page} (h : Entered e e' q page)
    (hown : e.pool.locks.Owns u q) (hp : ¬(q = p ∧ u = t)) : Steady e e' t p := by
  intro hh
  have hqp : p ≠ q := by
    rintro rfl
    exact hp ⟨rfl, (hown.eq_of_holds hc.locks hh).symm⟩
  exact Steady.of_content h.rules.locks (content_modify hc.toBacked h.store h.other hqp) hh

/-- A page is written after the last one, where nothing was seen before. -/
theorem steady_stow {m : Mount} {page : Page} (hn : e.pool.page? q = none ∧ e.store.page? q = none)
    (hstored : ∀ r, r ≠ q → (e.stow m page).store.page? r = e.store.page? r) :
    Steady e (e.stow m page) t p := by
  refine fun hh => ⟨hh, fun g hg => ?_⟩
  have hpq : p ≠ q := by
    rintro rfl
    rw [content?, visible?, hn.1, hn.2] at hg
    cases hg
  rw [content?, visible?, hstored p hpq]
  exact hg

theorem Edits.id {purpose : Purpose} {old new : Page} (h : Edits purpose old new) : new.id = old.id := by
  cases h with
  | place h =>
    obtain ⟨slot, -, -, -, rfl⟩ := Page.insert_eq_ok h
    rfl
  | remove h =>
    obtain ⟨r, -, -, -, rfl⟩ := Page.delete_eq_ok h
    rfl

/-- A granted request of `u` on page `q` is steady, unless it changes the page
for the transaction that looks at it. -/
theorem Served.steady {mode : LockMode} {purpose : Purpose} {a : Advance}
    (h : Served e u q purpose e' a) (hc : Coherent e)
    (hr : LockRequest.Proper ⟨u, q, mode, purpose⟩ e.store)
    (hown : mode = .exclusive → e.pool.locks.Owns u q) :
    Steady e e' t p ∨ (q = p ∧ u = t ∧ ∃ page, page.id = q ∧ a = .done (.ok (.changed page))) := by
  have hmode : ∀ {old new}, Edits purpose old new → mode = .exclusive := by
    intro old new hd
    cases hd with
    | place => exact hr.2.2
    | remove => exact hr.2
  cases h with
  | held => exact .inl (.refl e t p)
  | failed h => exact .inl (h.steady hc)
  | fetched h => exact .inl (h.steady hc)
  | passed h => exact .inl (h.steady hc)
  | overtaken => exact .inl (.refl e t p)
  | stranded hm hj hi hf =>
    obtain ⟨-, hstored⟩ := hc.stow hm hr.1.tuple hf hi
    exact .inl (steady_stow (hc.not_cached (Nat.le_of_eq hi.symm)) fun r hrq =>
      (hstored r).trans (if_neg hrq))
  | @changed _ e1 _ old new h ht hp hd hn =>
    by_cases hqp : q = p ∧ u = t
    · obtain ⟨hid, hs, hf, -⟩ := hc.visible hp
      exact .inr ⟨hqp.1, hqp.2, new.withDirtier (some u), hd.id.trans hid, rfl⟩
    · have hown1 : e1.pool.locks.Owns u q := by
        rw [h.rules.locks]
        exact hown (hmode hd)
      exact .inl ((h.steady hc).trans (hn.steady (hc.reload h.reload ht) hown1 hqp))
  | @appended job m filled r _ hm hj hi hx hf hn =>
    obtain ⟨hc1, hstored⟩ := hc.stow hm hr.1.tuple hf hi
    obtain ⟨⟨hid, -⟩, -⟩ := new_page hr.1.tuple hf
    by_cases hqp : q = p ∧ u = t
    · exact .inr ⟨hqp.1, hqp.2, filled.withDirtier (some u), hid, rfl⟩
    · have hstow : Steady e (e.stow m (firstImage m.file q filled)) t p :=
        steady_stow (hc.not_cached (Nat.le_of_eq hi.symm)) fun r hrq => (hstored r).trans (if_neg hrq)
      exact .inl (hstow.trans (hn.steady hc1 (hown hr.2.2) hqp))

/-! ## Ends of transactions, and pages that go -/

theorem steady_releaseAll (hs : e.pool.locks.Safe) (hu : t ≠ u) : Steady e (e.releaseAll u).1 t p :=
  steady_withLocks fun h => LockTable.holds_releaseAll hs h hu

/-- The commit of another transaction, or a commit that breaks off. -/
theorem steady_keepChanges (hc : Coherent e) (h : (e.keepChanges u).result = .ok () → t ≠ u) :
    Steady e (e.keepChanges u).engine t p := by
  obtain ⟨-, e1, hf, -, ⟨hok, -, he⟩ | ⟨-, he⟩⟩ := keepChanges_spec hc u
  · rw [he]
    have hs : e1.pool.locks.Safe := by
      rw [hf.rules.locks]
      exact hc.locks
    exact hf.steady.trans (steady_releaseAll hs (h hok))
  · rw [he]
    exact hf.steady

/-- The abort of another transaction: what it takes back is not on a page that
somebody else holds. -/
theorem steady_dropChanges (hc : Coherent e) (hu : t ≠ u) :
    Steady e (e.dropChanges u).engine t p := by
  obtain ⟨-, e1, hr, -, he⟩ := dropChanges_spec hc u
  rw [he]
  have hs : e1.pool.locks.Safe := by
    rw [hr.reload.rules.locks]
    exact hc.locks
  refine Steady.trans ?_ (steady_releaseAll hs hu)
  intro hh
  have hmem : p ∉ e.pool.dirtyPages (· == u) := by
    intro hmem
    obtain ⟨page, v, hp, hd, hv⟩ := Pool.mem_dirtyPages.1 hmem
    obtain rfl : v = u := by simpa using hv
    exact hu ((hc.owned p page v hp hd).eq_of_holds hc.locks hh)
  refine Steady.of_content hr.reload.rules.locks ?_ hh
  rw [content?, content?, visible?, visible?, hr.other p hmem, hr.reload.store]

/-- A page that is discarded is written back first if it is dirty. -/
theorem steady_discard (hc : Coherent e) (q : PageId) : Steady e (e.discard q).1 t p := by
  unfold discard
  split
  · exact .refl e t p
  · next e1 h1 =>
    obtain ⟨hb1, hf, hclean, -⟩ := flush_spec hc.toBacked h1
    refine hf.steady.trans (.of_content rfl ?_)
    by_cases hpq : p = q
    · subst hpq
      rw [hb1.content_of_clean hclean, content?,
        visible_of_not_cached ((page?_drop e1.pool p p).trans (if_pos rfl))]
    · rw [content?, content?, visible?, visible?, page?_drop, if_neg hpq]

end PageStore.Engine
