import PageStore.Proofs.Interleaving.Account
import PageStore.Proofs.Interleaving.Coherence

/-!
# The accounts of all transactions

In a world, the account of a transaction is what the chronicle has of it since
it last ended. All accounts are in order, and all operations on course, as long
as appended pages are stored empty, writes do not fail, and nobody flushes or
discards pages by hand; reads may fail.

Results:
* `Accounted.calm`, `Accounted.acts`: one step of one transaction, as all others
  see it and as its own account does.
* `Accounted.keeps`: commits do not fail.
* `accounted_step`, `accounted_of_reachable`: the invariant, along every run.
-/
namespace PageStore

/-- Everything but flushes and discards by hand, and failing writes. -/
def Event.isOrderly : Event → Bool
  | .start .. | .turn .. | .keep _ | .drop _ | .latch _ | .unlatch _ => true
  | .fail _ faults => !faults.writes
  | .flushPage _ | .flushTxn _ | .flushAll | .discard _ => false

theorem Event.not_isOrderly_of_isFlush {event : Event} (h : event.isFlush = true) :
    ¬event.isOrderly = true := by
  cases event <;> first | exact Bool.false_ne_true | cases h

namespace World

/-- All accounts are in order, and all operations on course. -/
structure Accounted (w : World) : Prop where
  coherent : w.Coherent
  orderly : w.engine.store.Orderly
  account : ∀ t, Engine.Account w.engine t (pending t w.chronicle)
  active : ∀ (t : TxnId) (a : Activity), w.active[t]? = some a →
    Engine.OnCourse w.engine t (pending t w.chronicle) a.operation a.request

variable {w w' : World} {t : TxnId} {a : Activity}

theorem accounted_fresh {store : Store} (hs : store.catalog.Sound) (ho : store.Orderly)
    {capacity : Nat} {policy : DeadlockPolicy} {pool : Pool} (hp : Pool.new capacity policy = .ok pool) :
    (fresh store pool).Accounted := by
  refine ⟨coherent_fresh hs hp, ho, ?_, ?_⟩
  · intro t
    refine Engine.account_nil ?_
    intro p page h
    unfold Pool.new at hp
    split at hp
    · cases hp
    · cases hp
      simp [fresh, Pool.page?] at h
  · intro t a h
    simp [fresh] at h

theorem orderly_of_catalog {s s' : Store} (h : s'.catalog = s.catalog) (ho : s.Orderly) : s'.Orderly := by
  refine ⟨?_, ?_⟩ <;> rw [h]
  · exact ho.append
  · exact ho.writes

/-- A step that is calm for everybody and notes nothing. -/
theorem Accounted.calm (hw : w.Accounted) (hc : w'.Coherent) (ho : w'.engine.store.Orderly)
    (hcalm : ∀ u, Engine.Calm w.engine w'.engine u) (hchronicle : w'.chronicle = w.chronicle)
    (hactive : ∀ (u : TxnId) (b : Activity), w'.active[u]? = some b →
      (∃ b', w.active[u]? = some b' ∧ b'.operation = b.operation ∧ b'.request = b.request) ∨
        Engine.OnCourse w'.engine u (pending u w.chronicle) b.operation b.request) : w'.Accounted := by
  refine ⟨hc, ho, ?_, ?_⟩
  · intro u
    rw [hchronicle]
    exact (hw.account u).calm (hcalm u)
  · intro u b hb
    rw [hchronicle]
    rcases hactive u b hb with ⟨b', hb', h1, h2⟩ | h
    · rw [← h1, ← h2]
      exact (hw.active u b' hb').calm (hcalm u)
    · exact h

/-- A step of `t` that changes its account, and leaves it idle. -/
theorem Accounted.acts (hw : w.Accounted) (hc : w'.Coherent) (ho : w'.engine.store.Orderly)
    (hcalm : ∀ u, u ≠ t → Engine.Calm w.engine w'.engine u)
    (hother : ∀ u, u ≠ t → pending u w'.chronicle = pending u w.chronicle)
    (hself : Engine.Account w'.engine t (pending t w'.chronicle))
    (hactive : ∀ (u : TxnId) (b : Activity), w'.active[u]? = some b →
      u ≠ t ∧ w.active[u]? = some b) : w'.Accounted := by
  refine ⟨hc, ho, ?_, ?_⟩
  · intro u
    by_cases hu : u = t
    · exact hu ▸ hself
    · rw [hother u hu]
      exact (hw.account u).calm (hcalm u hu)
  · intro u b hb
    obtain ⟨hu, hb⟩ := hactive u b hb
    rw [hother u hu]
    exact (hw.active u b hb).calm (hcalm u hu)

theorem pending_changed_of_ne {t u : TxnId} (h : u ≠ t) (change : Change) (p : PageId)
    (before : Option Grid) (chronicle : List Entry) :
    pending u (.changed t change p before :: chronicle) = pending u chronicle := by
  rw [pending, if_neg (Ne.symm h)]

theorem pending_changed (t : TxnId) (change : Change) (p : PageId) (before : Option Grid)
    (chronicle : List Entry) :
    pending t (.changed t change p before :: chronicle) = ⟨change, p, before⟩ :: pending t chronicle := by
  rw [pending, if_pos rfl]

theorem pending_ended (t : TxnId) (kept : Bool) (chronicle : List Entry) :
    pending t (.ended t kept :: chronicle) = [] := by
  rw [pending, if_pos rfl]

theorem pending_ended_of_ne {t u : TxnId} (h : u ≠ t) (kept : Bool) (chronicle : List Entry) :
    pending u (.ended t kept :: chronicle) = pending u chronicle := by
  rw [pending, if_neg (Ne.symm h)]

theorem note_of_not_changed {result : Except Error Outcome}
    (h : ∀ page, result ≠ .ok (.changed page)) : w.note t a result = [] := by
  unfold note
  split
  · next page _ => exact absurd rfl (h page)
  · rfl

/-- A turn that is calm for everybody. -/
theorem accounted_calm_turn (hw : w.Accounted) (ha : w.active[t]? = some a) {e : Engine}
    {progress : Engine.Progress} (hc : (w.turned t a e progress).Coherent) (ho : e.store.Orderly)
    (hcalm : ∀ u, Engine.Calm w.engine e u) (hn : ∀ page, progress ≠ .done (.ok (.changed page)))
    (hnext : ∀ r, progress = .next r → Engine.OnCourse e t (pending t w.chronicle) a.operation r) :
    (w.turned t a e progress).Accounted := by
  have hchronicle : (w.turned t a e progress).chronicle = w.chronicle := by
    cases progress with
    | done result =>
      rw [turned, note_of_not_changed fun page he => hn page (congrArg _ he)]
      rfl
    | next r => rfl
    | asleep => rfl
  refine hw.calm hc ?_ (fun u => ?_) hchronicle fun u b hb => ?_
  · rw [engine_turned]
    exact ho
  · rw [engine_turned]
    exact hcalm u
  · rcases active_turned ha hb with h | ⟨rfl, hp, hoperation⟩
    · exact .inl h
    · rw [engine_turned, hoperation]
      exact .inr (hnext _ hp)

theorem accounted_turn (hw : w.Accounted) (ha : w.active[t]? = some a) (which : Turn) :
    (w.turned t a (w.engine.turn a.ticket a.request which).1
      (w.engine.turn a.ticket a.request which).2).Accounted := by
  have hc := coherent_turn hw.coherent ha which
  have hask : ∀ u, Engine.Calm w.engine (w.granted a which) u :=
    Engine.calm_request w.engine a.ticket a.request which
  have hcg : (w.granted a which).Coherent := hw.coherent.engine.request a.ticket a.request which
  have hlost : ∀ {advance : Engine.Progress}, (advance = .asleep ∨ ∃ x, advance = .done (.error x)) →
      (∀ page, advance ≠ .done (.ok (.changed page))) ∧ ∀ r, advance ≠ .next r := by
    rintro _ (rfl | ⟨x, rfl⟩) <;> simp
  rcases turn_served hw.coherent ha which with ⟨advance, hp, hown, hserved⟩ | ⟨hp, -, hturn⟩
  · have ho : (w.engine.turn a.ticket a.request which).1.store.Orderly :=
      orderly_of_catalog hserved.catalog hw.orderly
    obtain ⟨hcalm, ⟨change, page, hchange, rfl, hid, hacc⟩ | ⟨hn, hself, hnext⟩⟩ :=
      Engine.served_account hcg ((hw.account t).calm (hask t)) ((hw.active t a ha).calm (hask t))
        (hw.coherent.active t a ha).2 hown hw.orderly hserved
    · rw [hp] at hc ⊢
      have hnote : w.note t a (.ok (.changed page)) =
          [.changed t change a.request.page (w.engine.content? a.request.page)] := by
        rw [note_changed hchange, hid]
      refine hw.acts hc ho (fun u hu => (hask u).trans (hcalm u hu)) ?_ ?_ ?_
      · intro u hu
        change pending u (w.note t a (.ok (.changed page)) ++ w.chronicle) = _
        rw [hnote]
        exact pending_changed_of_ne hu _ _ _ _
      · change Engine.Account _ t (pending t (w.note t a (.ok (.changed page)) ++ w.chronicle))
        rw [hnote, List.singleton_append, pending_changed]
        exact hacc
      · intro u b hb
        change (w.active.erase t)[u]? = some b at hb
        rw [getElem?_active_erase] at hb
        split at hb
        · cases hb
        · next hu => exact ⟨hu, hb⟩
    · refine accounted_calm_turn hw ha hc ho ?_ ?_ ?_
      · intro u
        by_cases hu : u = t
        · exact hu ▸ (hask t).trans hself
        · exact (hask u).trans (hcalm u hu)
      · intro page he
        rw [hp] at he
        cases advance with
        | done result => cases he; exact hn page rfl
        | ask => cases he
      · intro r hr
        exact hnext r (hp ▸ hr)
  · refine accounted_calm_turn hw ha hc ?_ ?_ (hlost hp).1 ?_
    · rw [hturn.store]
      exact hw.orderly
    · intro u
      exact (hask u).trans (hturn.calm hcg u)
    · intro r hr
      exact absurd hr ((hlost hp).2 r)

/-- Commits do not fail. -/
theorem Accounted.keeps (hw : w.Accounted) (t : TxnId) :
    (w.engine.keepChanges t).result = .ok () :=
  Engine.keepChanges_isOk hw.coherent.engine hw.orderly.writes t

/-- The end of a transaction closes its account. -/
theorem Accounted.ended (hw : w.Accounted) (hidle : w.active[t]? = none) {e : Engine}
    (kept : Bool) (hc : Coherent ⟨e, w.active, .ended t kept :: w.chronicle⟩) (ho : e.store.Orderly)
    (hcalm : ∀ u, u ≠ t → Engine.Calm w.engine e u) (hspot : Engine.Spotless e t) :
    Accounted ⟨e, w.active, .ended t kept :: w.chronicle⟩ := by
  refine hw.acts hc ho hcalm ?_ ?_ ?_
  · intro u hu
    exact pending_ended_of_ne hu _ _
  · dsimp only
    rw [pending_ended]
    exact Engine.account_nil hspot
  · intro u b hb
    refine ⟨?_, hb⟩
    rintro rfl
    rw [hidle] at hb
    cases hb

theorem accounted_step (hw : w.Accounted) {event : Event} (ha : event.isOrderly = true)
    (hs : w.step event = some w') : w'.Accounted := by
  have hc := coherent_step hw.coherent hs
  cases happens hs with
  | idle => exact hw
  | begun hidle ho hb =>
    refine hw.calm hc hw.orderly (fun u => .refl _ u) rfl fun u b hu => ?_
    rw [getElem?_active_insert] at hu
    split at hu
    · next he =>
      cases hu
      subst he
      exact .inr (Engine.onCourse_begin ho hb hw.coherent.engine.catalog)
    · exact .inl ⟨b, hu, rfl, rfl⟩
  | turned hact => exact accounted_turn hw hact _
  | @kept t hidle hok =>
    have ho := orderly_of_catalog (Engine.catalog_keepChanges w.engine t) hw.orderly
    obtain ⟨e1, -, -, hspot, he⟩ := Engine.keepChanges_of_ok hw.coherent.engine hok
    refine hw.ended hidle true hc ho (fun u hu => Engine.calm_keepChanges hw.coherent.engine hok hu) ?_
    rw [he]
    exact hspot
  | @broken t x hx =>
    rw [hw.keeps t] at hx
    cases hx
  | @dropped t hidle =>
    have hstore := Engine.store_dropChanges w.engine t
    have ho := orderly_of_catalog (congrArg Store.catalog hstore) hw.orderly
    obtain ⟨-, e1, -, hspot, he⟩ := Engine.dropChanges_spec hw.coherent.engine t
    refine hw.ended hidle false hc ho (fun u hu => Engine.calm_dropChanges hw.coherent.engine hu) ?_
    rw [he]
    exact hspot
  | flushed ps he => exact absurd ha (Event.not_isOrderly_of_isFlush he)
  | discarded => cases ha
  | @failing table faults =>
    have hf : faults.writes = false := by simpa [Event.isOrderly] using ha
    refine hw.calm hc (hw.orderly.withFaults table hf) (fun u => ?_) rfl
      fun u b hb => .inl ⟨b, hb, rfl, rfl⟩
    exact Engine.calm_sameFiles (Store.sameFiles_withFaults _ table faults) u
  | latching =>
    exact hw.calm hc hw.orderly (fun u => (Engine.Calm.refl w.engine u).aside rfl rfl rfl) rfl
      fun u b hb => .inl ⟨b, hb, rfl, rfl⟩

theorem accounted_of_reachable {start : World} (h0 : start.Accounted)
    (h : Reachable (fun event => event.isOrderly = true) start w) : w.Accounted := by
  induction h with
  | start => exact h0
  | step event _ ha hs ih => exact accounted_step ih ha hs

end World
end PageStore
