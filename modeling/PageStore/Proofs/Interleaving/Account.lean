import Mathlib.Data.Finset.Card
import PageStore.Proofs.Interleaving.Edits
import PageStore.Proofs.Pool.Calm

/-!
# Accounts of open transactions

The account of a transaction is the list of edits that it has made since it
last ended. It is in order if the edits are legal on what is stored, the
transaction owns every page they read, and the pages it dirtied are exactly
those it edited and show what the edits make of the stored content. Besides,
the cache has room for what the edits needed.

An insert under way owns the pages it has passed, and they are still full.

Results:
* `Account.view`: what a transaction sees is its account laid over storage.
* `Account.calm`, `Account.edit`: an account outlives whatever is calm for its
  transaction, and grows by every change.
* `served_account`: what a granted request does to the accounts.
-/
namespace PageStore

/-- The cache has room for every page that an edit read beside the pages
edited before. -/
def Roomy (capacity : Nat) : List Edit → Prop
  | [] => True
  | e :: rest => Roomy capacity rest ∧
    ∀ p, e.Reads p → (insert p (editedPages rest).toFinset).card ≤ capacity

/-- A change that may be asked for: an insert puts a row into a table whose
layout it follows. -/
def Change.Proper (s : Store) : Change → Prop
  | .insert table tuple =>
    tuple.Sound ∧ ∃ f, s.file? table = some f ∧ tuple.layout.agrees f.layout = true
  | .delete _ => True

theorem Change.Proper.of_files {s s' : Store} {change : Change} (h : change.Proper s)
    (hf : ∀ u, s'.file? u = s.file? u) : change.Proper s' := by
  cases change with
  | insert table tuple =>
    obtain ⟨ht, f, hfile, ha⟩ := h
    exact ⟨ht, f, (hf table).trans hfile, ha⟩
  | delete => trivial

theorem Placement.Proper.change {s : Store} {job : Placement} (h : job.Proper s) :
    (Change.insert job.file.id job.tuple).Proper s :=
  ⟨h.tuple, job.file, h.file, h.agrees⟩

theorem Pool.card_le_capacity {c : Pool} (ht : c.Tidy) {s : Finset PageId}
    (h : ∀ p ∈ s, c.page? p ≠ none) : s.card ≤ c.capacity := by
  have hsub : s ⊆ c.cached.keys.toFinset := by
    intro p hp
    rw [List.mem_toFinset, Std.TreeMap.mem_keys, Std.TreeMap.mem_iff_isSome_getElem?,
      Option.isSome_iff_ne_none]
    intro hn
    exact h p hp (Pool.page?_eq_none.2 hn)
  calc s.card ≤ c.cached.keys.toFinset.card := Finset.card_le_card hsub
    _ ≤ c.cached.keys.length := List.toFinset_card_le _
    _ = c.cached.size := Std.TreeMap.length_keys
    _ ≤ c.capacity := ht.size

namespace Engine

/-- The edits of `t` that are neither kept nor dropped yet are in order. -/
structure Account (e : Engine) (t : TxnId) (edits : List Edit) : Prop where
  lawful : Lawful e.store.blank e.store.contents edits
  roomy : Roomy e.pool.capacity edits
  proper : ∀ edit ∈ edits, edit.change.Proper e.store
  owned : ∀ edit ∈ edits, ∀ p, edit.Reads p → e.pool.locks.Owns t p
  listed : ∀ p ∈ editedPages edits, ∃ page, e.pool.page? p = some page ∧ page.dirtier = some t ∧
    overlay e.store.contents edits p = some page.grid
  dirty : ∀ (p : PageId) (page : Page), e.pool.page? p = some page → page.dirtier = some t →
    p ∈ editedPages edits

/-- An insert of `t` has passed the page: it is full, and stays so. -/
structure Passed (e : Engine) (t : TxnId) (edits : List Edit) (p : PageId) : Prop where
  owned : e.pool.locks.Owns t p
  full : ∃ g, e.content? p = some g ∧ g.Full
  room : (insert p (editedPages edits).toFinset).card ≤ e.pool.capacity

/-- The request belongs to the operation, which has passed all earlier pages if
it is an insert. -/
def OnCourse (e : Engine) (t : TxnId) (edits : List Edit) (operation : Operation)
    (r : LockRequest Purpose) : Prop :=
  match r.purpose with
  | .hold | .fetch => True
  | .place job _ | .append job =>
    operation = .insert job.file.id job.tuple ∧
      ∀ i, i < r.page.index → Passed e t edits ⟨job.file.id, i⟩
  | .remove record => operation = .delete (some record)

variable {e e' : Engine} {t : TxnId} {edits : List Edit} {p : PageId}

/-! ## What others do -/

theorem Account.calm (h : Account e t edits) (hc : Calm e e' t) : Account e' t edits := by
  have hstored : ∀ edit ∈ edits, ∀ q, edit.Reads q → e'.store.contents q = e.store.contents q := by
    intro edit he q hq
    obtain ⟨g, hg⟩ := lawful_reads h.lawful he hq
    rw [hg, hc.stored q g (h.owned edit he q hq) hg]
  refine ⟨?_, ?_, ?_, ?_, ?_, ?_⟩
  · rw [Store.blank_congr hc.file]
    exact lawful_congr h.lawful hstored
  · rw [hc.capacity]
    exact h.roomy
  · intro edit he
    exact (h.proper edit he).of_files hc.file
  · intro edit he q hq
    exact hc.owns q (h.owned edit he q hq)
  · intro q hq
    obtain ⟨page, hp, hd, ho⟩ := h.listed q hq
    obtain ⟨edit, he, rfl⟩ := List.mem_map.1 hq
    refine ⟨page, hc.kept _ page hp hd, hd, ?_⟩
    rw [overlay_congr (hstored edit he _ (.inl rfl))]
    exact ho
  · intro q page hp hd
    exact h.dirty q page (hc.none_new q page hp hd) hd

theorem Passed.calm (h : Passed e t edits p) (hc : Calm e e' t) : Passed e' t edits p := by
  obtain ⟨g, hg, hf⟩ := h.full
  refine ⟨hc.owns p h.owned, ⟨g, hc.content p g h.owned hg, hf⟩, ?_⟩
  rw [hc.capacity]
  exact h.room

theorem OnCourse.calm {operation : Operation} {r : LockRequest Purpose}
    (h : OnCourse e t edits operation r) (hc : Calm e e' t) : OnCourse e' t edits operation r := by
  unfold OnCourse at *
  split at h
  · trivial
  · trivial
  · exact ⟨h.1, fun i hi => (h.2 i hi).calm hc⟩
  · exact ⟨h.1, fun i hi => (h.2 i hi).calm hc⟩
  · exact h

/-! ## What the transaction does itself -/

/-- What a transaction sees under its locks is its account laid over storage. -/
theorem Account.view (h : Account e t edits) (hc : Coherent e) (ho : e.pool.locks.Owns t p) :
    overlay e.store.contents edits p = e.content? p := by
  by_cases hp : p ∈ editedPages edits
  · obtain ⟨page, hpage, -, hover⟩ := h.listed p hp
    rw [hover, content_of_cached hpage]
  · have hclean : e.pool.IsClean p := by
      intro page hpage
      cases hd : page.dirtier with
      | none => rfl
      | some u =>
        obtain rfl : u = t := ho.eq hc.locks (hc.owned p page u hpage hd)
        exact absurd (h.dirty p page hpage hd) hp
    rw [overlay_of_not_mem hp, hc.content_of_clean hclean]
    rfl

/-- The cache has room for a page that it holds. -/
theorem Account.room (h : Account e t edits) (ht : e'.pool.Tidy)
    (hcap : e'.pool.capacity = e.pool.capacity)
    (hkept : ∀ q page, e.pool.page? q = some page → page.dirtier = some t →
      e'.pool.page? q ≠ none) (hp : e'.pool.page? p ≠ none) :
    (insert p (editedPages edits).toFinset).card ≤ e.pool.capacity := by
  rw [← hcap]
  refine Pool.card_le_capacity ht ?_
  intro q hq
  rw [Finset.mem_insert, List.mem_toFinset] at hq
  rcases hq with rfl | hq
  · exact hp
  · obtain ⟨page, hpage, hd, -⟩ := h.listed q hq
    exact hkept q page hpage hd

/-- A change of a page that its transaction owns is entered in its account. -/
theorem Account.edit (h : Account e t edits) (hc : Coherent e) {new : Page}
    (hn : Entered e e' p (new.withDirtier (some t))) (ho : e.pool.locks.Owns t p) {change : Change}
    {before : Option Grid} (hon : change.IsOn p) (hproper : change.Proper e.store)
    (hedit : ∃ old, e.content? p = some old ∧ change.edit? old = some new.grid)
    (hpassed : ∀ q, (Edit.mk change p before).Reads q → q ≠ p → Passed e t edits q)
    (hbefore : before = e.content? p ∨ before = none ∧ e.content? p = some (e.store.blank p.table)) :
    Account e' t (⟨change, p, before⟩ :: edits) := by
  have hview := h.view hc ho
  obtain ⟨old, hold, hnew⟩ := hedit
  have hkept : ∀ q page, q ≠ p → e.pool.page? q = some page → page.dirtier = some t →
      e'.pool.page? q = some page := by
    intro q page hq hpage hd
    rcases hn.other q hq with he | ⟨hclean, -⟩
    · exact he.trans hpage
    · rw [hclean page hpage] at hd
      cases hd
  refine ⟨⟨?_, hon, ?_, ?_, ?_⟩, ⟨?_, ?_⟩, ?_, ?_, ?_, ?_⟩
  · rw [hn.store]
    exact h.lawful
  · rw [hn.store, hview]
    exact ⟨old, new.grid, hold, hnew⟩
  · intro q hq hqp
    have hpass := hpassed q hq hqp
    rw [hn.store, h.view hc hpass.owned]
    exact hpass.full
  · rw [hn.store, hview]
    exact hbefore
  · rw [hn.rules.capacity]
    exact h.roomy
  · intro q hq
    rw [hn.rules.capacity]
    by_cases hqp : q = p
    · subst hqp
      refine h.room hn.tidy hn.rules.capacity ?_ (by rw [hn.cached]; simp)
      intro r page hpage hd
      by_cases hr : r = q
      · rw [hr, hn.cached]
        simp
      · rw [hkept r page hr hpage hd]
        simp
    · exact (hpassed q hq hqp).room
  · intro edit he
    rw [hn.store]
    rcases List.mem_cons.1 he with rfl | he
    · exact hproper
    · exact h.proper edit he
  · intro edit he q hq
    rw [hn.rules.locks]
    rcases List.mem_cons.1 he with rfl | he
    · by_cases hqp : q = p
      · exact hqp ▸ ho
      · exact (hpassed q hq hqp).owned
    · exact h.owned edit he q hq
  · intro q hq
    rw [hn.store]
    by_cases hqp : q = p
    · subst hqp
      refine ⟨_, hn.cached, rfl, ?_⟩
      rw [overlay, if_pos rfl, hview, hold]
      exact hnew
    · have hmem : q ∈ editedPages edits := by
        rw [editedPages, List.map_cons, List.mem_cons] at hq
        exact hq.resolve_left hqp
      obtain ⟨page, hpage, hd, hover⟩ := h.listed q hmem
      refine ⟨page, hkept q page hqp hpage hd, hd, ?_⟩
      rw [overlay, if_neg hqp]
      exact hover
  · intro q page hq hd
    rw [editedPages, List.map_cons, List.mem_cons]
    by_cases hqp : q = p
    · exact .inl hqp
    · refine .inr (h.dirty q page ?_ hd)
      rcases hn.other q hqp with he | ⟨-, he⟩
      · exact he ▸ hq
      · rw [he] at hq
        cases hq

/-- An insert that goes on to the next page has passed all earlier ones. -/
theorem onCourse_nextPlace {job : Placement} {page count : Nat}
    (h : ∀ i, i < page → Passed e t edits ⟨job.file.id, i⟩) {r : LockRequest Purpose}
    (hn : progressOf t (HeapFile.nextPlace job page count) = .next r) :
    OnCourse e t edits (.insert job.file.id job.tuple) r := by
  unfold HeapFile.nextPlace at hn
  split at hn
  · cases hn
    exact ⟨rfl, h⟩
  · next hle =>
    cases hn
    exact ⟨rfl, fun i hi => h i (Nat.lt_of_lt_of_le hi (Nat.le_of_not_lt hle))⟩

/-- An insert has passed every page that it looks at but the last. -/
theorem passed_of_reads {job : Placement} {before : Option Grid}
    (h : ∀ i, i < p.index → Passed e t edits ⟨job.file.id, i⟩) {q : PageId}
    (hq : (Edit.mk (.insert job.file.id job.tuple) p before).Reads q) (hqp : q ≠ p) :
    Passed e t edits q := by
  obtain ⟨table, tuple, he, ht, hlt⟩ := hq.resolve_left hqp
  cases he
  have heq : (⟨job.file.id, q.index⟩ : PageId) = q := PageId.eq_of_index ht.symm rfl
  exact heq ▸ h q.index hlt

/-- An operation starts on course: its insert has passed no page yet. -/
theorem onCourse_begin {operation : Operation} (ho : operation.isProper = true) {mode : LockMode}
    {purpose : Purpose} (h : e.begin operation = .ask p mode purpose) (hid : e.store.catalog.Sound) :
    OnCourse e t edits operation ⟨t, p, mode, purpose⟩ := by
  cases operation with
  | lock => cases h; trivial
  | fetch => cases h; trivial
  | insertInto => cases ho
  | deleteFrom => cases ho
  | insert table tuple =>
    unfold begin at h
    dsimp only at h
    split at h
    · cases h
    · next m hm =>
      rw [← hid.id _ _ (Catalog.lookup_eq_ok.1 hm)]
      unfold HeapFile.beginInsert at h
      split at h
      · split at h
        · cases h
        · next count _ =>
          have hn : progressOf t (HeapFile.nextPlace ⟨m.file, tuple, true⟩ 0 count) =
              .next ⟨t, p, mode, purpose⟩ := by rw [h]; rfl
          exact onCourse_nextPlace (fun i hi => absurd hi (Nat.not_lt_zero i)) hn
      · cases h
  | delete record =>
    unfold begin at h
    dsimp only at h
    split at h
    · cases h
    · split at h
      · cases h
      · unfold HeapFile.beginDelete at h
        dsimp only at h
        split at h
        · cases h
        · cases h
          rfl

/-- A transaction without edits and without dirty pages is in order. -/
theorem account_nil (h : Spotless e t) : Account e t [] := by
  refine ⟨trivial, trivial, ?_, ?_, ?_, ?_⟩
  · intro edit he
    simp at he
  · intro edit he
    simp at he
  · intro p hp
    simp [editedPages] at hp
  · intro p page hp hd
    exact absurd hd (h p page hp)

end Engine

/-- Tables append empty pages, and accept writes. -/
structure Store.Orderly (s : Store) : Prop where
  append : ∀ (t : TableId) (m : Mount), s.catalog[t]? = some m → m.file.append = .extendEmpty
  writes : ∀ (t : TableId) (m : Mount), s.catalog[t]? = some m → m.faults.writes = false

theorem Store.Orderly.withFaults {s : Store} (h : s.Orderly) (table : TableId) {faults : Faults}
    (hf : faults.writes = false) : (s.withFaults table faults).Orderly := by
  refine ⟨?_, ?_⟩ <;> intro t m hm <;> rw [Store.getElem?_withFaults] at hm
  · obtain ⟨m', hm', rfl⟩ := Option.map_eq_some_iff.1 hm
    split <;> exact h.append t m' hm'
  · obtain ⟨m', hm', rfl⟩ := Option.map_eq_some_iff.1 hm
    split
    · exact hf
    · exact h.writes t m' hm'

namespace Engine

variable {e e' : Engine} {t : TxnId} {edits : List Edit} {p : PageId} {operation : Operation}
  {mode : LockMode} {purpose : Purpose} {a : Advance}

/-- An appended page is stored blank. -/
theorem grid_firstImage (hs : e.store.Orderly) {m : Mount} (hm : e.store.catalog[p.table]? = some m)
    (filled : Page) : (firstImage m.file p filled).grid = e.store.blank p.table := by
  rw [firstImage, hs.append _ _ hm, Store.blank_of_mount hm]

theorem account_stow (hc : Coherent e) (hs : e.store.Orderly) (h : Account e t edits)
    {m : Mount} {job : Placement} {filled : Page} {r : RecordId}
    (hm : e.store.catalog[p.table]? = some m) (hj : job.tuple.Sound)
    (hi : p.index = e.store.pages p.table)
    (hf : (Page.empty p m.file.layout m.file.pageSize).insert job.tuple = .ok (filled, r)) :
    let e1 := e.stow m (firstImage m.file p filled)
    Coherent e1 ∧ (∀ u, Calm e e1 u) ∧ Account e1 t edits ∧ e.content? p = none ∧
      e1.content? p = some (e1.store.blank p.table) ∧
      (e1.store.blank p.table).insert? job.tuple.fields = some filled.grid := by
  intro e1
  obtain ⟨hc1, hstored⟩ := hc.stow hm hj hf hi
  have hn := hc.not_cached (Nat.le_of_eq hi.symm)
  have hcalm : ∀ u, Calm e e1 u := by
    intro u
    refine calm_stow hn ?_ u
    intro q hq
    rw [hstored, if_neg hq]
  refine ⟨hc1, hcalm, h.calm (hcalm t), ?_, ?_, ?_⟩
  · rw [content?, visible?, hn.1, hn.2]
    rfl
  · have hpool : e1.pool.page? p = none := hn.1
    rw [content?, visible_of_not_cached hpool, hstored, if_pos rfl, Option.map_some,
      Page.grid_asStored, grid_firstImage hs hm]
    rfl
  · change (e.store.blank p.table).insert? _ = _
    rw [Store.blank_of_mount hm]
    exact Page.grid_insert hf

/-- What an advance of `t` on page `p` is to the accounts: others stay calm, and
`t` has either made one more edit or is calm itself and on course. -/
def Booked (e e' : Engine) (t : TxnId) (p : PageId) (edits : List Edit) (operation : Operation)
    (a : Advance) : Prop :=
  (∀ u, u ≠ t → Calm e e' u) ∧
  ((∃ change page, operation.change? = some change ∧ a = .done (.ok (.changed page)) ∧ page.id = p ∧
      Account e' t (⟨change, p, e.content? p⟩ :: edits)) ∨
    ((∀ page, a ≠ .done (.ok (.changed page))) ∧ Calm e e' t ∧
      ∀ r, progressOf t a = .next r → OnCourse e' t edits operation r))

theorem booked_turnover (hc : Coherent e) (h : Turnover e e')
    (ha : ∀ page, a ≠ .done (.ok (.changed page)))
    (hnext : ∀ r, progressOf t a = .next r → OnCourse e' t edits operation r) :
    Booked e e' t p edits operation a :=
  ⟨fun u _ => h.calm hc u, .inr ⟨ha, h.calm hc t, hnext⟩⟩

/-- A full page that an insert of `t` has looked at. -/
theorem Account.passed (h : Account e t edits) (hturn : Turnover e e') (ht : e'.pool.Tidy)
    (hown : e.pool.locks.Owns t p) {page : Page} (hcached : e'.pool.page? p = some page)
    (hf : page.grid.Full) : Passed e' t edits p := by
  refine ⟨?_, ⟨page.grid, content_of_cached hcached, hf⟩, ?_⟩
  · rw [hturn.rules.locks]
    exact hown
  · rw [hturn.rules.capacity]
    refine h.room ht hturn.rules.capacity ?_ (by rw [hcached]; simp)
    intro q page' hq hd
    rw [hturn.dirty hq (by rw [hd]; simp)]
    simp

section
variable (hc : Coherent e) (hacc : Account e t edits)
  (hcourse : OnCourse e t edits operation ⟨t, p, mode, purpose⟩)
  (hproper : LockRequest.Proper ⟨t, p, mode, purpose⟩ e.store)
  (hown : mode = .exclusive → e.pool.locks.Owns t p)

include hc hacc hcourse hproper hown

/-- A page that is changed is booked. -/
theorem booked_changed {e1 : Engine} {old new : Page} (h : Turnover e e1) (ht : e1.pool.Tidy)
    (hp : e.visible? p = some old) (hd : Edits purpose old new)
    (hn : Entered e1 e' p (new.withDirtier (some t))) :
    Booked e e' t p edits operation (.done (.ok (.changed (new.withDirtier (some t))))) := by
  have hc1 := hc.reload h.reload ht
  have hacc1 := hacc.calm (h.calm hc t)
  have hx : mode = .exclusive := by
    cases hd with
    | place => exact hproper.2.2
    | remove => exact hproper.2
  have hown1 : e1.pool.locks.Owns t p := by
    rw [h.rules.locks]
    exact hown hx
  have hold : e1.content? p = some old.grid := by
    rw [content_turnover hc.toBacked h, content?, hp]
    rfl
  obtain ⟨hid, -⟩ := hc.visible hp
  refine ⟨fun u hu => (h.calm hc u).trans (hn.calm hc1 hown1 hu), .inl ?_⟩
  rw [← content_turnover hc.toBacked h]
  cases hd with
  | @place job limit _ _ r hi =>
    obtain ⟨rfl, hbefore⟩ := hcourse
    obtain ⟨hjob, htable, -⟩ := hproper
    have hjob1 : (Change.insert job.file.id job.tuple).Proper e1.store := by
      rw [h.store]
      exact hjob.change
    obtain ⟨slot, -, -, -, hnew⟩ := Page.insert_eq_ok hi
    refine ⟨_, _, rfl, rfl, by rw [hnew]; exact hid, ?_⟩
    refine hacc1.edit hc1 hn hown1 htable hjob1 ⟨_, hold, Page.grid_insert hi⟩ ?_ (.inl rfl)
    intro q hq hqp
    exact (passed_of_reads hbefore hq hqp).calm (h.calm hc t)
  | @remove record _ _ hi =>
    obtain rfl := hcourse
    obtain ⟨r, hr, -, -, hnew⟩ := Page.delete_eq_ok hi
    refine ⟨_, _, rfl, rfl, by rw [hnew]; exact hid, ?_⟩
    refine hacc1.edit hc1 hn hown1 hproper.1 trivial ⟨_, hold, Change.edit_delete hi⟩ ?_ (.inl rfl)
    intro q hq hqp
    obtain ⟨table, tuple, he, -, -⟩ := hq.resolve_left hqp
    cases he

/-- What a granted request does to the accounts. -/
theorem served_account (hs : e.store.Orderly) (h : Served e t p purpose e' a) :
    Booked e e' t p edits operation a := by
  cases h with
  | held => exact booked_turnover hc (.refl e) (by simp) (by intro r hr; cases hr)
  | failed h => exact booked_turnover hc h (by simp) (by intro r hr; cases hr)
  | fetched h => exact booked_turnover hc h (by simp) (by intro r hr; cases hr)
  | @passed job limit _ page h ht hp hf hcached =>
    obtain ⟨rfl, hbefore⟩ := hcourse
    refine booked_turnover hc h (fun page => nextPlace_ne_done _ _ _ _) ?_
    intro r hr
    refine onCourse_nextPlace ?_ hr
    intro i hi
    rcases Nat.lt_succ_iff_lt_or_eq.1 hi with hlt | rfl
    · exact (hbefore i hlt).calm (h.calm hc t)
    · have hp' : (⟨job.file.id, p.index⟩ : PageId) = p := PageId.eq_of_index hproper.2.1.symm rfl
      rw [hp']
      exact hacc.passed h ht (hown hproper.2.2) hcached hf
  | overtaken =>
    obtain ⟨rfl, hbefore⟩ := hcourse
    refine booked_turnover hc (.refl e) (fun page => nextPlace_ne_done _ _ _ _) ?_
    intro r hr
    exact onCourse_nextPlace hbefore hr
  | stranded hm hj hi hf =>
    obtain ⟨-, hcalm, -⟩ := account_stow hc hs hacc hm hproper.1.tuple hi hf
    exact ⟨fun u _ => hcalm u, .inr ⟨by simp, hcalm t, by intro r hr; cases hr⟩⟩
  | changed h ht hp hd hn => exact booked_changed hc hacc hcourse hproper hown h ht hp hd hn
  | @appended job m filled r _ hm hj hi hx hf hn =>
    obtain ⟨rfl, hbefore⟩ := hcourse
    obtain ⟨hc1, hcalm, hacc1, hnone, hblank, hedit⟩ := account_stow hc hs hacc hm hproper.1.tuple hi hf
    have hown1 := (hcalm t).owns p (hown hproper.2.2)
    obtain ⟨⟨hid, -⟩, -⟩ := new_page hproper.1.tuple hf
    refine ⟨fun u hu => (hcalm u).trans (hn.calm hc1 hown1 hu), .inl ?_⟩
    refine ⟨_, _, rfl, rfl, hid, ?_⟩
    refine hacc1.edit hc1 hn hown1 hproper.2.1 hproper.1.change ⟨_, hblank, hedit⟩ ?_
      (.inr ⟨hnone, hblank⟩)
    intro q hq hqp
    exact (passed_of_reads hbefore hq hqp).calm (hcalm t)

end

end Engine
end PageStore
