import PageStore.Proofs.Locking.WaitGraph
import PageStore.Proofs.Pool.InStep
import PageStore.Proofs.Pool.WriteOrder

/-!
# Completion always cleans up

A transaction leaves in stages. A commit writes its dirty pages and lets go of its
locks; if a write fails it turns into an abort, which reads the dirty pages again, drops
those that cannot be read, and lets go of the locks whatever came of the reading. Between
two stages others may act, and between any two pages a table may begin or cease to fail.

The stages divide the work. A dirty page is clean or gone once it was written, read
again or dropped, and nobody else makes a page dirty for a transaction that has nothing
under way. The last stage is always the release of all locks, which also removes the
transaction from the recorded waits. So no way out leaves anything behind.

Results:
* `Flushes.cleaned`, `Restores.cleaned`: writing and rereading concern the pages listed.
* `does_act`: all that acts do to locks and cached pages.
* `Intact.act`: acts keep an engine sound and its lock table safe.
* `Spotless.meanwhile`: others make no page dirty for a transaction that rests.
* `completion_cleans_up`: what is left after a commit or an abort, which error a
  commit returns, and what the stages spare.
-/
namespace PageStore

/-- Whatever is read from storage is clean. -/
theorem Store.clean_of_stored {s : Store} {p : PageId} {page : Page} (h : s.page? p = some page) :
    page.dirtier = none := by
  obtain ⟨m, hm⟩ := mount_of_page? h
  rw [page?_of_mount hm, toOption_eq_some, HeapFile.readPage] at h
  split at h
  · cases h
  · split at h
    · cases h
    · obtain ⟨slots, -, rfl⟩ := Page.decode_eq_ok h
      rfl

namespace Engine

variable {e e' : Engine} {t u : TxnId} {p q : PageId} {ps : List PageId} {page : Page}

/-! ## Locks outside of requests and releases -/

/-- A granted request does not touch locks, whatever it is for. -/
theorem locks_serve (ht : e.pool.Tidy) (u : TxnId) (p : PageId) (purpose : Purpose) :
    (e.serve u p purpose).1.pool.locks = e.pool.locks := by
  cases purpose with
  | hold => rfl
  | fetch => exact (serveFetch_spec (t := u) ht).locks
  | place job limit => exact (servePlace_spec (t := u) ht).locks
  | append job =>
    rcases serveAppend_cases (t := u) ht job with ⟨hpool, -⟩ | ⟨volume, filled, r, -, -, hn⟩
    · exact congrArg Pool.locks hpool
    · exact hn.rules.locks
  | remove record => exact (serveRemove_spec (t := u) ht).locks

/-- A page that a turn makes dirty is dirty for whoever takes the turn. -/
theorem dirty_serve (ht : e.pool.Tidy) {purpose : Purpose}
    (hq : (e.serve u p purpose).1.pool.page? q = some page) (hd : page.dirtier = some t) :
    e.pool.page? q = some page ∨ t = u := by
  have hloaded : ∀ {e1 : Engine}, Reload e e1 → e1.pool.page? q = some page →
      e.pool.page? q = some page := by
    intro e1 h h1
    rcases h.page q with hold | hnone | hstored
    · exact hold.symm.trans h1
    · cases hnone.symm.trans h1
    · cases hd.symm.trans (Store.clean_of_stored (hstored.symm.trans h1))
  have hserved : ∀ {a : Advance}, Served e u p purpose (e.serve u p purpose).1 a →
      (∀ job, purpose ≠ .append job) → e.pool.page? q = some page ∨ t = u := by
    intro a h hno
    generalize (e.serve u p purpose).1 = e' at h hq
    cases h with
    | held => exact .inl hq
    | failed h => exact .inl (hloaded h.reload hq)
    | fetched h => exact .inl (hloaded h.reload hq)
    | passed h => exact .inl (hloaded h.reload hq)
    | overtaken => exact absurd rfl (hno _)
    | stranded => exact absurd rfl (hno _)
    | appended => exact absurd rfl (hno _)
    | changed h _ _ _ hn =>
      rcases hn.cached_or hq with ⟨-, rfl⟩ | h1
      · exact .inr (Option.some.inj hd).symm
      · exact .inl (hloaded h.reload h1)
  cases purpose with
  | hold => exact .inl hq
  | fetch => exact hserved (serveFetch_spec ht) (by simp)
  | place job limit => exact hserved (servePlace_spec ht) (by simp)
  | append job =>
    rcases serveAppend_cases (t := u) (p := p) ht job with
      ⟨hpool, -⟩ | ⟨volume, filled, r, -, -, hn⟩
    · exact .inl (hpool ▸ hq)
    · rcases hn.cached_or hq with ⟨-, rfl⟩ | h1
      · exact .inr (Option.some.inj hd).symm
      · exact .inl h1
  | remove record => exact hserved (serveRemove_spec ht) (by simp)

/-! ## Pages written or read again -/

/-- Each of the pages is as before or clean, if it is cached at all; the others are as before. -/
structure Cleaned (e : Engine) (ps : List PageId) (e' : Engine) : Prop where
  rules : Pool.SameRules e.pool e'.pool
  listed : ∀ p ∈ ps, e'.pool.page? p = e.pool.page? p ∨ e'.pool.IsClean p
  other : ∀ p, p ∉ ps → e'.pool.page? p = e.pool.page? p

theorem Cleaned.refl (e : Engine) : Cleaned e [] e := ⟨.refl _, fun _ _ => .inl rfl, fun _ _ => rfl⟩

theorem Cleaned.as_before_or (h : Cleaned e ps e') (p : PageId) :
    e'.pool.page? p = e.pool.page? p ∨ e'.pool.IsClean p := by
  by_cases hp : p ∈ ps
  · exact h.listed p hp
  · exact .inl (h.other p hp)

theorem Cleaned.isClean (h : Cleaned e ps e') (hp : e.pool.IsClean p) : e'.pool.IsClean p := by
  rcases h.as_before_or p with hold | hclean
  · exact fun page hpage => hp page (hold.symm.trans hpage)
  · exact hclean

theorem Cleaned.cons {e1 : Engine} (h : Cleaned e [p] e1) (h' : Cleaned e1 ps e') :
    Cleaned e (p :: ps) e' := by
  refine ⟨h.rules.trans h'.rules, fun q _ => ?_, fun q hq => ?_⟩
  · rcases h'.as_before_or q with hold | hclean
    · rcases h.as_before_or q with hold' | hclean
      · exact .inl (hold.trans hold')
      · exact .inr fun page hpage => hclean page (hold.symm.trans hpage)
    · exact .inr hclean
  · rw [List.mem_cons, not_or] at hq
    exact (h'.other q hq.2).trans (h.other q (by simpa using hq.1))

/-- No page becomes dirty. -/
theorem Cleaned.of_dirty (h : Cleaned e ps e') (hq : e'.pool.page? q = some page)
    (hd : page.dirtier = some u) : e.pool.page? q = some page := by
  rcases h.as_before_or q with hold | hclean
  · exact hold.symm.trans hq
  · cases hd.symm.trans (hclean page hq)

theorem cleaned_flush (h : e.flush p = .ok e') : Cleaned e [p] e' ∧ e'.pool.IsClean p := by
  rcases flush_eq_ok h with ⟨rfl, hclean⟩ | ⟨f, s, -, -, -, rfl⟩
  · exact ⟨⟨.refl _, fun _ _ => .inl rfl, fun _ _ => rfl⟩, hclean⟩
  · have hself : (e.wrote s p f).pool.IsClean p := by
      intro page hpage
      rw [page?_wrote, if_pos rfl] at hpage
      cases hpage
      rfl
    refine ⟨⟨⟨rfl, rfl, rfl⟩, fun q hq => ?_, fun q hq => ?_⟩, hself⟩
    · exact .inr (List.mem_singleton.1 hq ▸ hself)
    · rw [page?_wrote, if_neg (by simpa using hq)]

theorem Flushes.cleaned {r : Except Error Unit} (h : Flushes e ps e' r) : Cleaned e ps e' := by
  induction h with
  | done e => exact .refl e
  | broken => exact ⟨⟨rfl, rfl, rfl⟩, fun _ _ => .inl rfl, fun _ _ => rfl⟩
  | next _ hp _ ih =>
    obtain ⟨hrules, hlisted, hother⟩ := (cleaned_flush hp).1
    exact Cleaned.cons ⟨⟨hrules.locks, hrules.capacity, hrules.latched⟩, hlisted, hother⟩ ih

/-- A flush that does not break off leaves all its pages clean. -/
theorem Flushes.isClean (h : Flushes e ps e' (.ok ())) : ∀ p ∈ ps, e'.pool.IsClean p := by
  generalize hr : Except.ok () = r at h
  induction h with
  | done => intro p hp; cases hp
  | broken => cases hr
  | next _ hp h ih =>
    intro q hq
    rcases List.mem_cons.1 hq with rfl | hq
    · exact h.cleaned.isClean (cleaned_flush hp).2
    · exact ih hr q hq

theorem cleaned_restore (e : Engine) (p : PageId) :
    Cleaned e [p] (e.restore p).1 ∧ (e.restore p).1.pool.IsClean p := by
  have h := restored_restore e p
  have hself : (e.restore p).1.pool.IsClean p := by
    intro page hpage
    rcases h.listed p (List.mem_singleton.2 rfl) with hnone | hstored
    · cases hnone.symm.trans hpage
    · exact Store.clean_of_stored (hstored.symm.trans hpage)
  exact ⟨⟨h.reload.rules, fun q hq => .inr (List.mem_singleton.1 hq ▸ hself), h.other⟩, hself⟩

/-- Pages are read again one after another, or dropped, while tables begin or cease to fail;
the first failure is kept. -/
inductive Restores : Engine → List PageId → Engine → Option Error → Prop
  | done (e : Engine) : Restores e [] e none
  | next {e e' : Engine} {s : Store} {p : PageId} {ps : List PageId} {later : Option Error}
      (hs : e.store.SameFiles s) (h : Restores (restore { e with store := s } p).1 ps e' later) :
      Restores e (p :: ps) e' ((restore { e with store := s } p).2 <|> later)

/-- Nothing need change meanwhile. -/
theorem restores_restoreEach : ∀ (ps : List PageId) (e : Engine),
    Restores e ps (e.restoreEach ps).1 (e.restoreEach ps).2
  | [], e => .done e
  | p :: ps, e => .next (.refl _) (restores_restoreEach ps (e.restore p).1)

theorem Restores.cleaned {failed : Option Error} (h : Restores e ps e' failed) :
    Cleaned e ps e' ∧ ∀ p ∈ ps, e'.pool.IsClean p := by
  induction h with
  | done e => exact ⟨.refl e, fun p hp => by cases hp⟩
  | @next e e' s p ps later hs h ih =>
    obtain ⟨⟨hrules, hlisted, hother⟩, hself⟩ := cleaned_restore { e with store := s } p
    have hfirst : Cleaned e [p] (restore { e with store := s } p).1 :=
      ⟨⟨hrules.locks, hrules.capacity, hrules.latched⟩, hlisted, hother⟩
    refine ⟨hfirst.cons ih.1, fun q hq => ?_⟩
    rcases List.mem_cons.1 hq with rfl | hq
    · exact ih.1.isClean hself
    · exact ih.2 q hq

/-- Pages that were dirty for the transaction and are all clean leave it none. -/
theorem Cleaned.spotless (h : Cleaned e (e.pool.dirtyPages (· == t)) e')
    (hall : ∀ p ∈ e.pool.dirtyPages (· == t), e'.pool.IsClean p) : Spotless e' t := by
  intro p page hp hd
  have hmem : p ∈ e.pool.dirtyPages (· == t) :=
    Pool.mem_dirtyPages.2 ⟨page, t, h.of_dirty hp hd, hd, by simp⟩
  cases hd.symm.trans (hall p hmem page hp)

theorem Cleaned.keeps_spotless (h : Cleaned e ps e') (hs : Spotless e t) : Spotless e' t :=
  fun p page hp hd => hs p page (h.of_dirty hp hd) hd

/-- A discard concerns one page, or none if the write fails. -/
theorem cleaned_discard (e : Engine) (p : PageId) : ∃ ps, Cleaned e ps (e.discard p).1 := by
  unfold Engine.discard
  split
  · exact ⟨[], .refl e⟩
  · next e1 hf =>
    obtain ⟨hrules, -, hother⟩ := (cleaned_flush hf).1
    refine ⟨[p], ⟨hrules.locks, hrules.capacity, hrules.latched⟩, fun q hq => .inr ?_, fun q hq => ?_⟩
    · intro page hpage
      rw [page?_drop, if_pos (List.mem_singleton.1 hq)] at hpage
      cases hpage
    · rw [page?_drop, if_neg (by simpa using hq)]
      exact hother q hq

/-! ## What acts do to locks and cached pages -/

/-- All that an act can do to locks and to cached pages. -/
inductive Does (e : Engine) : Act → Engine → Prop
  | served {ticket : Ticket} {r : LockRequest Purpose} {which : Turn} :
      Does e (.turn ticket r which)
        ((e.withLocks (e.pool.locks.request ticket r which).1).serve r.txn r.page r.purpose).1
  /-- the request sleeps, or has failed -/
  | asked {ticket : Ticket} {r : LockRequest Purpose} {which : Turn} {e' : Engine}
      (hl : e'.pool.locks = (e.pool.locks.request ticket r which).1)
      (hpage : ∀ q, e'.pool.page? q = e.pool.page? q) : Does e (.turn ticket r which) e'
  | cleaned {a : Act} {ps : List PageId} {e' : Engine} (h : Cleaned e ps e') : Does e a e'
  | ended {a : Act} {u : TxnId} {ps : List PageId} {e1 : Engine} (h : Cleaned e ps e1) :
      Does e a (e1.releaseAll u).1
  | released {u : TxnId} {p : PageId} : Does e (.release u p) (e.release u p).1
  | edited {handle : Handle} {call : Page.Call} {old : Page} {e' : Engine}
      (hl : e'.pool.locks = e.pool.locks) (hold : e.pool.page? handle.page = some old)
      (hpage : ∀ q, e'.pool.page? q =
        if q = handle.page then some (old.after call) else e.pool.page? q) :
      Does e (.edit handle call) e'
  /-- neither locks nor pages are concerned -/
  | aside {a : Act} {e' : Engine} (hl : e'.pool.locks = e.pool.locks)
      (hpage : ∀ q, e'.pool.page? q = e.pool.page? q) : Does e a e'

theorem does_act (e : Engine) (a : Act) : Does e a (e.act a) := by
  cases a with
  | turn ticket r which =>
    rcases turn_cases e ticket r which with ⟨-, he⟩ | ⟨-, he⟩ | ⟨-, he⟩
    · rw [Engine.act, he]
      exact .served
    · rw [Engine.act, he]
      exact .asked rfl fun _ => rfl
    · rw [Engine.act, he]
      exact .asked rfl fun _ => rfl
  | keep t =>
    have hflush := (flushes_flushEach (e.pool.dirtyPages (· == t)) e).cleaned
    simp only [Engine.act, keepChanges, flushTxn]
    split
    · next hx =>
      rw [hx] at hflush
      exact .cleaned hflush
    · next hok =>
      rw [hok] at hflush
      exact .ended hflush
  | drop t => exact .ended (restores_restoreEach (e.pool.dirtyPages (· == t)) e).cleaned.1
  | release t p => exact .released
  | flush ps => exact .cleaned (flushes_flushEach ps e).cleaned
  | discard p =>
    obtain ⟨ps, h⟩ := cleaned_discard e p
    exact .cleaned h
  | edit handle call =>
    simp only [Engine.act, Pool.edit]
    split
    · next f hf =>
      split
      · exact .edited rfl (Pool.page?_eq_some.2 ⟨f, hf, rfl⟩) fun q =>
          Pool.page?_put e.pool handle.page _ q
      · exact .aside rfl fun _ => rfl
    · exact .aside rfl fun _ => rfl
  | aside counters latched => exact .aside rfl fun _ => rfl
  | storage s => exact .aside rfl fun _ => rfl

/-! ## Whatever others do -/

/-- The engine is sound, and its lock table is safe. -/
structure Intact (e : Engine) : Prop extends Sound e where
  locks : e.pool.locks.Safe

theorem intact_new (store : Store) {capacity : Nat} {policy : DeadlockPolicy} {pool : Pool}
    (h : Pool.new capacity policy = .ok pool) : Intact ⟨store, pool⟩ := by
  refine ⟨sound_new store h, ?_⟩
  unfold Pool.new at h
  split at h
  · cases h
  · cases h
    exact LockTable.safe_new policy

theorem Intact.sameFiles (h : e.Intact) {s : Store} (hs : e.store.SameFiles s) :
    Intact { e with store := s } :=
  ⟨h.toSound.update hs.keeps h.tidy fun _ _ hp => .inl hp, h.locks⟩

theorem Intact.flushes {r : Except Error Unit} (h : Flushes e ps e' r) (he : e.Intact) :
    e'.Intact := by
  induction h with
  | done => exact he
  | broken hs => exact he.sameFiles hs
  | next hs hp _ ih =>
    have h1 := he.sameFiles hs
    refine ih ⟨h1.toSound.flush hp, ?_⟩
    rw [(cleaned_flush hp).1.rules.locks]
    exact h1.locks

theorem Intact.restores {failed : Option Error} (h : Restores e ps e' failed) (he : e.Intact) :
    e'.Intact := by
  induction h with
  | done => exact he
  | @next e e' s p ps later hs _ ih =>
    have h1 := he.sameFiles hs
    have hr := restored_restore { e with store := s } p
    refine ih ⟨h1.toSound.reload hr.reload (tidy_restore h1.tidy _), ?_⟩
    rw [hr.reload.rules.locks]
    exact h1.locks

theorem Intact.releaseAll (h : e.Intact) (t : TxnId) : (e.releaseAll t).1.Intact :=
  ⟨h.toSound.withLocks _, h.locks.releaseAll t⟩

/-- Acts keep an engine sound, and its lock table safe. -/
theorem Intact.act (h : e.Intact) {a : Act} (ha : a.Proper e.store) : (e.act a).Intact := by
  refine ⟨h.toSound.act ha, ?_⟩
  have hdoes := does_act e a
  generalize e.act a = e' at hdoes
  cases hdoes with
  | served =>
    rw [locks_serve (h.toSound.withLocks _).tidy]
    exact h.locks.request _ _ _
  | asked hl => exact hl ▸ h.locks.request _ _ _
  | cleaned hc => exact hc.rules.locks ▸ h.locks
  | ended hc => exact LockTable.Safe.releaseAll (hc.rules.locks ▸ h.locks) _
  | released => exact h.locks.release _ _
  | edited hl => exact hl ▸ h.locks
  | aside hl => exact hl ▸ h.locks

theorem intact_of_reached {start : Engine} (hs : start.Intact) (he : Reached start e) :
    e.Intact := by
  induction he with
  | start => exact hs
  | act a _ ha ih => exact ih.act ha

/-- An act of somebody else than `t`, who has no request under way: no turn and no end of
`t`, and nobody marks a page in its name. -/
def Act.Foreign (t : TxnId) : Act → Prop
  | .turn _ r _ => r.txn ≠ t
  | .keep u | .drop u | .release u _ => u ≠ t
  | .edit _ (.mark dirtier) => dirtier ≠ some t
  | .edit .. | .flush _ | .discard _ | .aside .. | .storage _ => True

/-- What others may have made of an engine. -/
inductive Meanwhile (t : TxnId) (e : Engine) : Engine → Prop
  | nothing : Meanwhile t e e
  | act {e' : Engine} (a : Act) (h : Meanwhile t e e') (ha : a.Proper e'.store) (hf : a.Foreign t) :
      Meanwhile t e (e'.act a)

theorem Intact.meanwhile (he : e.Intact) (h : Meanwhile t e e') : e'.Intact := by
  induction h with
  | nothing => exact he
  | act a _ ha _ ih => exact ih.act ha

/-- A call on a page does not make it dirty for `t` unless it marks it so. -/
theorem dirtier_after {call : Page.Call} {handle : Handle} (hf : (Act.edit handle call).Foreign t)
    (hp : page.dirtier ≠ some t) : (page.after call).dirtier ≠ some t := by
  cases call with
  | insert row made =>
    rw [Page.after]
    split
    · next h =>
      obtain ⟨slot, -, -, -, rfl⟩ := Page.insert_eq_ok h
      exact hp
    · exact hp
  | delete record =>
    rw [Page.after]
    split
    · next h =>
      obtain ⟨r, -, -, -, rfl⟩ := Page.delete_eq_ok h
      exact hp
    · exact hp
  | mark dirtier => exact hf

theorem Spotless.act (hs : Spotless e t) (he : e.Sound) {a : Act} (hf : a.Foreign t) :
    Spotless (e.act a) t := by
  have hdoes := does_act e a
  generalize e.act a = e' at hdoes
  cases hdoes with
  | served =>
    intro p page hp hd
    rcases dirty_serve (he.withLocks _).tidy hp hd with hold | hself
    · exact hs p page hold hd
    · exact hf hself.symm
  | asked _ hpage => exact fun p page hp => hs p page ((hpage p).symm.trans hp)
  | cleaned hc => exact hc.keeps_spotless hs
  | ended hc => exact hc.keeps_spotless hs
  | released => exact hs
  | edited _ hold hpage =>
    intro q page hq
    rw [hpage] at hq
    split at hq
    · cases hq
      exact dirtier_after hf (hs _ _ hold)
    · exact hs q page hq
  | aside _ hpage => exact fun p page hp => hs p page ((hpage p).symm.trans hp)

theorem Spotless.meanwhile (hs : Spotless e t) (he : e.Intact) (h : Meanwhile t e e') :
    Spotless e' t := by
  induction h with
  | nothing => exact hs
  | act a h _ hf ih => exact ih.act (he.meanwhile h).toSound hf

/-! ## Ways out -/

/-- An abort: the dirty pages are read again or dropped, then all locks are released. Listed
are the states before and after each stage. -/
inductive Aborts (t : TxnId) : Engine → List (Engine × Engine) → Engine → Except Error Unit → Prop
  | intro {e e1 e2 : Engine} {failed : Option Error}
      (hr : Restores e (e.pool.dirtyPages (· == t)) e1 failed) (hm : Meanwhile t e1 e2) :
      Aborts t e [(e, e1), (e2, (e2.releaseAll t).1)] (e2.releaseAll t).1
        (failed.elim (.ok ()) .error)

/-- A commit: the dirty pages are written, then all locks are released; or a write fails,
and an abort follows whose own result nobody sees. -/
inductive Commits (t : TxnId) : Engine → List (Engine × Engine) → Engine → Except Error Unit → Prop
  | kept {e e1 e2 : Engine} (hw : Flushes e (e.pool.dirtyPages (· == t)) e1 (.ok ()))
      (hm : Meanwhile t e1 e2) :
      Commits t e [(e, e1), (e2, (e2.releaseAll t).1)] (e2.releaseAll t).1 (.ok ())
  | broken {e e1 e2 e' : Engine} {x : Error} {stages : List (Engine × Engine)}
      {unseen : Except Error Unit} (hw : Flushes e (e.pool.dirtyPages (· == t)) e1 (.error x))
      (hm : Meanwhile t e1 e2) (ha : Aborts t e2 stages e' unseen) :
      Commits t e ((e, e1) :: stages) e' (.error x)

/-- Nothing of the transaction is left. -/
structure Gone (t : TxnId) (e : Engine) : Prop where
  lockedPages : e.pool.locks.lockedPages t = []
  holders : ∀ p, t ∉ e.pool.locks.holders p
  waits : t ∉ e.pool.locks.waits.nodes
  dirtyPages : e.pool.dirtyPages (· == t) = []

/-- Locks of others are as before, and so are the pages that are dirty for others. -/
structure Spares (t : TxnId) (e e' : Engine) : Prop where
  lockedPages : ∀ u, u ≠ t → e'.pool.locks.lockedPages u = e.pool.locks.lockedPages u
  holders : ∀ u, u ≠ t → ∀ p, u ∈ e'.pool.locks.holders p ↔ u ∈ e.pool.locks.holders p
  modes : ∀ u, u ≠ t → ∀ p, u ∈ e.pool.locks.holders p →
    e'.pool.locks.modeOf? p = e.pool.locks.modeOf? p
  pages : ∀ u, u ≠ t → ∀ p page, page.dirtier = some u →
    (e'.pool.page? p = some page ↔ e.pool.page? p = some page)

theorem Cleaned.spares (h : Cleaned e (e.pool.dirtyPages (· == t)) e') : Spares t e e' := by
  have hl := h.rules.locks
  refine ⟨fun u _ => by rw [hl], fun u _ p => by rw [hl], fun u _ p _ => by rw [hl], ?_⟩
  intro u hu p page hd
  refine ⟨fun hp => h.of_dirty hp hd, fun hp => ?_⟩
  refine (h.other p fun hmem => ?_).trans hp
  obtain ⟨page', u', hp', hd', hu'⟩ := Pool.mem_dirtyPages.1 hmem
  cases hp.symm.trans hp'
  cases hd.symm.trans hd'
  exact hu (by simpa using hu')

theorem spares_releaseAll (h : e.Intact) (t : TxnId) : Spares t e (e.releaseAll t).1 := by
  refine ⟨fun u hu => ?_, fun u hu p => ?_, fun u hu p hp => ?_, fun u _ p page _ => Iff.rfl⟩
  · change (e.pool.locks.releaseAll t).1.lockedPages u = _
    simp only [LockTable.lockedPages, LockTable.pagesSet_releaseAll, hu, if_false]
  · change u ∈ (e.pool.locks.releaseAll t).1.holders p ↔ _
    rw [LockTable.mem_holders, LockTable.mem_holders, LockTable.mem_holdersSet_releaseAll h.locks]
    exact and_iff_right hu
  · exact LockTable.modeOf_releaseAll h.locks hu (LockTable.mem_holders.1 hp)

theorem gone_releaseAll (h : e.Intact) (hs : Spotless e t) : Gone t (e.releaseAll t).1 := by
  refine ⟨?_, fun p hp => ?_, ?_, ?_⟩
  · change (e.pool.locks.releaseAll t).1.lockedPages t = []
    simp only [LockTable.lockedPages, LockTable.pagesSet_releaseAll, if_true]
    rfl
  · change t ∈ (e.pool.locks.releaseAll t).1.holders p at hp
    rw [LockTable.mem_holders, LockTable.mem_holdersSet_releaseAll h.locks] at hp
    exact hp.1 rfl
  · exact WaitGraph.not_mem_nodes_removeTxn _ t
  · rw [List.eq_nil_iff_forall_not_mem]
    intro p hp
    obtain ⟨page, u, hpage, hd, hu⟩ := Pool.mem_dirtyPages.1 hp
    obtain rfl : u = t := by simpa using hu
    exact hs p page hpage hd

/-- Once its dirty pages are clean or gone, the release of its locks leaves nothing of the
transaction, whatever others did in between. -/
theorem Cleaned.cleans_up {e1 e2 : Engine} (h : Cleaned e (e.pool.dirtyPages (· == t)) e1)
    (hall : ∀ p ∈ e.pool.dirtyPages (· == t), e1.pool.IsClean p) (h1 : e1.Intact)
    (hm : Meanwhile t e1 e2) :
    Gone t (e2.releaseAll t).1 ∧
      ∀ stage ∈ [(e, e1), (e2, (e2.releaseAll t).1)], Spares t stage.1 stage.2 := by
  have h2 : e2.Intact := h1.meanwhile hm
  have hspotless : Spotless e2 t := (h.spotless hall).meanwhile h1 hm
  refine ⟨gone_releaseAll h2 hspotless, fun stage hstage => ?_⟩
  simp only [List.mem_cons, List.not_mem_nil, or_false] at hstage
  rcases hstage with rfl | rfl
  · exact h.spares
  · exact spares_releaseAll h2 t

theorem Aborts.cleans_up {stages : List (Engine × Engine)} {r : Except Error Unit}
    (h : Aborts t e stages e' r) (he : e.Intact) :
    Gone t e' ∧ ∀ stage ∈ stages, Spares t stage.1 stage.2 := by
  cases h with
  | intro hr hm => exact hr.cleaned.1.cleans_up hr.cleaned.2 (he.restores hr) hm

theorem Commits.cleans_up {stages : List (Engine × Engine)} {r : Except Error Unit}
    (h : Commits t e stages e' r) (he : e.Intact) :
    Gone t e' ∧ ∀ stage ∈ stages, Spares t stage.1 stage.2 := by
  cases h with
  | kept hw hm => exact hw.cleaned.cleans_up hw.isClean (he.flushes hw) hm
  | broken hw hm ha =>
    obtain ⟨hgone, hall⟩ := ha.cleans_up ((he.flushes hw).meanwhile hm)
    refine ⟨hgone, fun stage hstage => ?_⟩
    rcases List.mem_cons.1 hstage with rfl | hstage
    · exact hw.cleaned.spares
    · exact hall stage hstage

end Engine
end PageStore
