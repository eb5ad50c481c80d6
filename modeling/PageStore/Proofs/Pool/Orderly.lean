import PageStore.Proofs.Pool.Reached

/-!
# Orderly use of an engine

What the cache relies on is little, and has nothing to do with locks. An act is
orderly if rows go to registered tables and follow their layouts, if a cached
page that is called on through a handle is dirty then, and if whatever others do
to storage leaves tables their files and takes away no page that can be read.
Within that anything goes: transactions let go of pages early, ask for several
pages at a time, end twice or go on after their end, tables are registered and
begin or cease to fail, and pages are added to files from outside.

Results:
* `Backed.act`, `backed_of_operated`: orderly acts keep an engine backed.
* `reached_of_operated`: orderly acts are acts.
* `keeps_act`: and registered tables keep their files.
-/
namespace PageStore

/-- Tables keep their files, and pages that can be read stay as they are. -/
structure Store.Retains (s s' : Store) : Prop where
  catalog : s'.catalog.Sound
  keeps : s.Keeps s'
  page : ∀ (p : PageId) (page : Page), s.page? p = some page → s'.page? p = some page

theorem Store.SameFiles.retains {s s' : Store} (h : s.SameFiles s') (hc : s.catalog.Sound) :
    s.Retains s' :=
  ⟨h.sound hc, h.keeps, fun p _ hp => (h.page p).trans hp⟩

namespace Engine

variable {e e' : Engine} {p : PageId} {t : TxnId}

/-! ## Each act on its own -/

theorem Backed.withLocks (hb : Backed e) (locks : LockTable Purpose) : Backed (e.withLocks locks) :=
  hb.aside rfl rfl rfl

theorem Backed.turn (hb : Backed e) {r : LockRequest Purpose} (hr : r.Proper e.store)
    (ticket : Ticket) (which : Turn) : Backed (e.turn ticket r which).1 := by
  rcases turn_cases e ticket r which with ⟨-, he⟩ | ⟨-, he⟩ | ⟨-, he⟩
  · rw [he]
    have hg := hb.withLocks (e.pool.locks.request ticket r which).1
    exact (serve_spec hg hr).backed hg hr
  · rw [he]
    exact hb.withLocks _
  · rw [he]
    exact (hb.withLocks _).aside rfl rfl rfl

theorem Backed.keepChanges (hb : Backed e) (t : TxnId) : Backed (e.keepChanges t).engine := by
  have hflush := (flushEach_spec (e.pool.dirtyPages (· == t)) hb).1
  unfold Engine.keepChanges flushTxn
  split
  · next hx => rwa [hx] at hflush
  · next hok =>
    rw [hok] at hflush
    exact hflush.withLocks _

theorem Backed.restoreEach (hb : Backed e) (ps : List PageId) : Backed (e.restoreEach ps).1 :=
  hb.reload (restored_restoreEach ps e).reload (tidy_restoreEach ps hb.tidy)

theorem Backed.dropChanges (hb : Backed e) (t : TxnId) : Backed (e.dropChanges t).engine :=
  (hb.restoreEach (e.pool.dirtyPages (· == t))).withLocks _

/-- The page that a handle shows in the cache is dirty after a call. -/
def LeavesDirty (e : Engine) (handle : Handle) (call : Page.Call) : Prop :=
  ∀ f, e.pool.cached[handle.page]? = some f → f.number = handle.frame →
    (f.page.after call).dirtier ≠ none

theorem Backed.edit (hb : Backed e) {handle : Handle} {call : Page.Call}
    (hd : e.LeavesDirty handle call) : Backed { e with pool := e.pool.edit handle call } := by
  unfold Pool.edit
  split
  · next f hf =>
    split
    · next hframe =>
      have hcached := Pool.page?_put e.pool handle.page { f with page := f.page.after call }
      have hp : e.pool.page? handle.page = some f.page := Pool.page?_eq_some.2 ⟨f, hf, rfl⟩
      obtain ⟨old, hold, -⟩ := hb.stored _ _ hp
      refine Backed.modify (e := e) rfl ((hcached _).trans (if_pos rfl))
        (fun q hq => .inl ((hcached q).trans (if_neg hq)))
        (Store.Suits.after (hb.page _ _ hp) call) ⟨old, hold⟩ hb ?_ (hd f hf hframe)
      exact hb.tidy.reframe hf _
    · exact hb.aside rfl rfl rfl
  · exact hb.aside rfl rfl rfl

theorem Backed.retains (hb : Backed e) {s : Store} (h : e.store.Retains s) :
    Backed { e with store := s } := by
  refine ⟨h.catalog, hb.tidy, fun p page hp => ?_, fun p page hp => ?_⟩
  · exact Store.Suits.mono (hb.page p page hp) h.keeps
  · obtain ⟨old, hold, hgrid⟩ := hb.stored p page hp
    exact ⟨old, h.page p old hold, hgrid⟩

/-! ## Orderly acts -/

def Act.Orderly (e : Engine) : Act → Prop
  | .turn _ r _ => r.Proper e.store
  | .edit handle call => e.LeavesDirty handle call
  | .storage s => e.store.Retains s
  | _ => True

/-- The engines that orderly acts lead to. -/
inductive Operated (start : Engine) : Engine → Prop
  | start : Operated start start
  | act {e : Engine} (a : Act) (h : Operated start e) (ha : a.Orderly e) :
      Operated start (e.act a)

theorem Act.Orderly.proper {a : Act} (ha : a.Orderly e) : a.Proper e.store := by
  cases a with
  | turn ticket r which => exact LockRequest.Proper.sane ha
  | storage s => exact Store.Retains.keeps ha
  | _ => trivial

theorem reached_of_operated {start : Engine} (he : Operated start e) : Reached start e := by
  induction he with
  | start => exact .start
  | act a _ ha ih => exact ih.act a ha.proper

theorem Backed.act (hb : Backed e) {a : Act} (ha : a.Orderly e) : Backed (e.act a) := by
  cases a with
  | turn ticket r which => exact hb.turn ha ticket which
  | keep t => exact hb.keepChanges t
  | drop t => exact hb.dropChanges t
  | release t p => exact hb.withLocks _
  | flush ps => exact (flushEach_spec ps hb).1
  | discard p => exact (discard_spec hb p).1
  | edit handle call => exact hb.edit ha
  | aside counters latched => exact hb.aside rfl rfl rfl
  | storage s => exact hb.retains ha

theorem backed_of_operated {start : Engine} (hs : Backed start) (he : Operated start e) : Backed e := by
  induction he with
  | start => exact hs
  | act a _ ha ih => exact ih.act ha

/-! ## Tables keep their files -/

theorem keeps_turn (hb : Backed e) {r : LockRequest Purpose} (hr : r.Proper e.store)
    (ticket : Ticket) (which : Turn) : e.store.Keeps (e.turn ticket r which).1.store :=
  keeps_of_proper (a := .turn ticket r which) hb.tidy hr.sane

theorem keeps_act (hb : Backed e) {a : Act} (ha : a.Orderly e) : e.store.Keeps (e.act a).store :=
  keeps_of_proper hb.tidy ha.proper

end Engine
end PageStore
