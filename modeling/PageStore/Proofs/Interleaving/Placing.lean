import PageStore.Proofs.Interleaving.Appending
import PageStore.Proofs.Pool.FailedInsert

/-!
# Where an insert puts its row

An insert reads the page count before it waits for locks, and by the time it gets them
the count may be out of date. But it holds every page that it has passed, so these are
still full when it comes to the end. If the file has grown meanwhile, it goes on with
the pages that were added, and appends only after the last of them. So when it succeeds,
whatever others did while it slept, its row stands in the lowest free slot of the first
page that had one, and the file has grown only if there was none.

This takes tables that do not share files: otherwise a page that the insert has passed
may be out of date in the cache, and shows a free slot when it has left the cache.

Results:
* `filled_step`, `filled_of_reachable`: what an insert under way has passed is full.
* `puts_turn`: what the last turn of an insert does.
* `inserts_fill_first_gap`: what a whole call does, in every run.
* `exists_gap_passed`: a row that was put behind a free slot.
-/
namespace PageStore

/-- A row goes into the lowest free slot. -/
theorem Grid.slot_of_insert? {g g' : Grid} {row : List Field} (h : g.insert? row = some g') :
    ∃ slot, g[slot]? = some none ∧ (∀ j < slot, ∃ other, g[j]? = some (some other)) ∧
      g' = g.set slot (some row) := by
  obtain ⟨slot, hslot, rfl⟩ := Option.map_eq_some_iff.1 h
  obtain ⟨hlt, hfree, hbefore⟩ := List.findIdx?_eq_some_iff_getElem.1 hslot
  refine ⟨slot, ?_, fun j hj => ?_, rfl⟩
  · rw [List.getElem?_eq_getElem hlt, Option.isNone_iff_eq_none.1 hfree]
  · have hlt := Nat.lt_trans hj hlt
    have htaken := hbefore j hj
    rw [Option.isNone_iff_eq_none] at htaken
    obtain ⟨other, hother⟩ := Option.ne_none_iff_exists'.1 htaken
    exact ⟨other, by rw [List.getElem?_eq_getElem hlt, hother]⟩

namespace Engine

variable {e e' : Engine} {t : TxnId} {p : PageId} {mode : LockMode} {purpose : Purpose}
  {a : Advance} {slot : Nat} {row : List Field}

/-! ## Rows on pages -/

/-- What a page shows; a page after the last one is blank. -/
def ground? (e : Engine) (p : PageId) : Option Grid :=
  (e.content? p).or (if p.index = e.store.pages p.table then some (e.store.blank p.table) else none)

/-- A row was put into the lowest free slot of a page, and nothing else shows. The table has
become longer if the page is new. -/
structure Lays (p : PageId) (slot : Nat) (row : List Field) (e e' : Engine) : Prop where
  lowest : ∃ g, e.ground? p = some g ∧ g[slot]? = some none ∧
    (∀ j < slot, ∃ other, g[j]? = some (some other)) ∧ e'.content? p = some (g.set slot (some row))
  others : ∀ q, q ≠ p → e'.content? q = e.content? q
  within : p.index ≤ e.store.pages p.table
  grown : e'.store.pages p.table = max (e.store.pages p.table) (p.index + 1)
  lengths : ∀ u, u ≠ p.table → e'.store.pages u = e.store.pages u

/-- `t` has put a row on a page of a table; it owns this page and those before it, which are full. -/
structure Puts (t : TxnId) (p : PageId) (slot : Nat) (row : List Field) (e e' : Engine) : Prop
    extends Lays p slot row e e' where
  full : ∀ i < p.index, ∃ g, e'.content? ⟨p.table, i⟩ = some g ∧ g.Full
  owned : ∀ i ≤ p.index, e'.pool.locks.Owns t ⟨p.table, i⟩

theorem Backed.ground_last (hb : Backed e) (hi : p.index = e.store.pages p.table) :
    e.ground? p = some (e.store.blank p.table) := by
  obtain ⟨hcached, hstored⟩ := hb.not_cached (Nat.le_of_eq hi.symm)
  rw [ground?, content?, visible_of_not_cached hcached, hstored, if_pos hi]
  rfl

/-! ## What a granted request of an insert does -/

/-- Until its last turn, an insert changes nothing. -/
theorem Served.quiet (h : Served e t p purpose e' a) (hb : Backed e) {r : LockRequest Purpose}
    (hn : progressOf t a = .next r) : Quiet e e' := by
  cases h with
  | passed h => exact h.quiet hb
  | overtaken => exact .refl e
  | _ => cases hn

section
variable (hb : Backed e) {job : Placement} {record : RecordId} {filled : Page}

include hb

/-- The row was put on a page that was there. -/
theorem lays_changed {e1 : Engine} {old new : Page} (h : Turnover e e1) (ht : e1.pool.Tidy)
    (hp : e.visible? p = some old) (hd : old.insert job.tuple = .ok (new, record))
    (hn : Entered e1 e' p (new.withDirtier (some t))) :
    ∃ slot, Lays p slot job.tuple.fields e e' := by
  have hcontent : e.content? p = some old.grid := by rw [content?, hp]; rfl
  obtain ⟨slot, hfree, hbefore, hnew⟩ := Grid.slot_of_insert? (Page.grid_insert hd)
  obtain ⟨-, -, -, stored, hstored⟩ := hb.visible hp
  have hlt := (Store.sound_page? hb.catalog hstored).2.2.2.2
  have hstore := hn.store.trans h.store
  refine ⟨slot, ⟨old.grid, ?_, hfree, hbefore, ?_⟩, fun q hq => ?_, Nat.le_of_lt hlt, ?_, fun u _ => ?_⟩
  · rw [ground?, hcontent]
    rfl
  · rw [content_of_cached hn.cached, Page.grid_withDirtier, hnew]
  · exact (content_modify (hb.reload h.reload ht) hn.store hn.other hq).trans (content_turnover hb h q)
  · rw [hstore, Nat.max_eq_left hlt]
  · rw [hstore]

/-- The row was put on a new page after the last one. -/
theorem lays_appended {m : Mount} (hm : e.store.catalog[p.table]? = some m) (hj : job.tuple.Sound)
    (hi : p.index = e.store.pages p.table)
    (hf : (Page.empty p m.file.layout m.file.pageSize).insert job.tuple = .ok (filled, record))
    (hn : Entered (e.stow m (firstImage m.file p filled)) e' p (filled.withDirtier (some t))) :
    ∃ slot, Lays p slot job.tuple.fields e e' := by
  obtain ⟨hb1, -⟩ := hb.stow hm hj hf hi
  obtain ⟨-, hid, hs, -, hsize⟩ := new_page hj hf
  obtain ⟨slot, hfree, hbefore, hnew⟩ := Grid.slot_of_insert? (Page.grid_insert hf)
  have hpages := Store.pages_put hb.catalog (hid.symm ▸ hm) hs hsize
  rw [hid] at hpages
  have hstore : e'.store.pages = (e.store.put m (firstImage m.file p filled)).pages :=
    congrArg Store.pages hn.store
  refine ⟨slot, ⟨_, hb.ground_last hi, ?_, ?_, ?_⟩, fun q hq => ?_, Nat.le_of_eq hi, ?_,
    fun u hu => ?_⟩
  · rw [Store.blank_of_mount hm]
    exact hfree
  · rw [Store.blank_of_mount hm]
    exact hbefore
  · rw [Store.blank_of_mount hm, content_of_cached hn.cached, Page.grid_withDirtier, hnew]
  · rw [content_modify hb1 hn.store hn.other hq, content_stow hb hm hj hf hi, if_neg hq]
  · rw [hstore, hpages, if_pos rfl]
  · rw [hstore, hpages, if_neg hu]

/-- With its last turn, an insert that succeeds puts its row on the page that it asked for. -/
theorem Served.lays (h : Served e t p purpose e' a)
    (hr : LockRequest.Proper ⟨t, p, mode, purpose⟩ e.store) (hi : purpose.Inserts job)
    {outcome : Outcome} (ha : a = .done (.ok outcome)) : ∃ slot, Lays p slot job.tuple.fields e e' := by
  cases h with
  | held => cases hi
  | failed => cases ha
  | fetched => cases hi
  | passed => exact absurd ha (nextPlace_ne_done _ _ _ _)
  | overtaken => exact absurd ha (nextPlace_ne_done _ _ _ _)
  | stranded => cases ha
  | changed h ht hp hd hn =>
    cases hi with
    | place =>
      cases hd with
      | place hd => exact lays_changed hb h ht hp hd hn
    | append => cases hd
  | appended hm hj hlast hx hf hn =>
    cases hi
    exact lays_appended hb hm hr.1.tuple hlast hf hn

end

end Engine

namespace World

variable {w w' : World} {t : TxnId} {table : TableId} {tuple : Tuple} {a b : Activity} {event : Event}

/-! ## What an insert has passed -/

theorem mem_note {result : Except Error Outcome} {entry : Entry} (h : entry ∈ w.note t a result) :
    ∃ change p before, entry = .changed t change p before := by
  unfold note at h
  split at h
  · exact ⟨_, _, _, List.mem_singleton.1 h⟩
  · cases h

/-- What the chronicle gets by a step does not concern whoever is busy before and after it. -/
theorem not_involved (hs : w.step event = some w') (ha : w.active[t]? = some a)
    (hb : w'.active[t]? = some b) {p : PageId} {added : List Entry}
    (h : w'.chronicle = added ++ w.chronicle) : ∀ entry ∈ added, ¬entry.Involves t p := by
  have hsame : w'.chronicle = w.chronicle → ∀ entry ∈ added, ¬entry.Involves t p := by
    intro hc entry he
    rw [hc, List.self_eq_append_left] at h
    rw [h] at he
    cases he
  have hidle : ∀ {u kept}, w.active[u]? = none →
      Entry.ended u kept :: w.chronicle = added ++ w.chronicle →
      ∀ entry ∈ added, ¬entry.Involves t p := by
    intro u kept hidle h entry he
    obtain rfl : [.ended u kept] = added := List.append_cancel_right h
    obtain rfl := List.mem_singleton.1 he
    rintro rfl
    cases hidle.symm.trans ha
  cases happens hs with
  | @turned u which c hc =>
    generalize w.engine.turn c.ticket c.request which = moved at *
    obtain ⟨e, result | r | _⟩ := moved
    · -- whoever is busy afterwards is not the one whose operation is over
      have hne : t ≠ u := by
        rintro rfl
        rw [turned, getElem?_active_erase, if_pos rfl] at hb
        cases hb
      intro entry he
      obtain rfl : w.note u c result = added := List.append_cancel_right h
      obtain ⟨change, q, before, rfl⟩ := mem_note he
      exact fun hinv => hne hinv.1.symm
    · exact hsame rfl
    · exact hsame rfl
  | kept hnone => exact hidle hnone h
  | dropped hnone => exact hidle hnone h
  | _ => exact hsame rfl

/-- What a busy transaction holds is steady for it, unless its operation is over. -/
theorem steady_of_busy (hw : w.Tasked) (hs : w.step event = some w') (ha : w.active[t]? = some a)
    (hb : w'.active[t]? = some b) (p : PageId) : Engine.Steady w.engine w'.engine t p := by
  obtain ⟨added, hadded, hsteady⟩ := undisturbed_step hw hs (t := t) (p := p)
  exact hsteady (not_involved hs ha hb hadded)

/-- Inserts under way own all pages before the one that they ask for, and these are full. -/
structure Filled (w : World) : Prop where
  lined : w.Lined
  behind : ∀ (t : TxnId) (a : Activity) (table : TableId) (tuple : Tuple), w.active[t]? = some a →
    a.operation = .insert table tuple → ∀ i < a.request.page.index,
      ∃ g, w.engine.content? ⟨table, i⟩ = some g ∧ g.Full

theorem filled_fresh {store : Store} (hs : store.catalog.Sound) {capacity : Nat}
    {policy : DeadlockPolicy} {pool : Pool} (hp : Pool.new capacity policy = .ok pool) :
    (fresh store pool).Filled :=
  ⟨lined_fresh hs hp, fun t a table tuple h => by simp [fresh] at h⟩

/-- The page that an insert asks for next comes right after full pages. -/
theorem filled_next (hw : w.Filled) (ha : w.active[t]? = some a) {which : Turn}
    {r : LockRequest Purpose} (hn : (w.engine.turn a.ticket a.request which).2 = .next r)
    (ho : a.operation = .insert table tuple) :
    Engine.Quiet w.engine (w.engine.turn a.ticket a.request which).1 ∧
      ∀ i < r.page.index, ∃ g,
        (w.engine.turn a.ticket a.request which).1.content? ⟨table, i⟩ = some g ∧ g.Full := by
  have hc := hw.lined.tasked.coherent
  have htable := (hw.lined.behind t a table tuple ha ho).1
  have hbehind := hw.behind t a table tuple ha ho
  have hb : (w.granted a which).Backed := hc.engine.toBacked.withLocks _
  obtain ⟨advance, hnext, -, hserved⟩ := served_of_next hc ha hn
  have hquiet := hserved.quiet hb hnext
  refine ⟨⟨hquiet.store, hquiet.content⟩, fun i hi => ?_⟩
  rw [hquiet.content]
  change ∃ g, w.engine.content? ⟨table, i⟩ = some g ∧ g.Full
  generalize (w.engine.turn a.ticket a.request which).1 = e' at hserved
  generalize hpurpose : a.request.purpose = purpose at hserved
  cases hserved with
  | @passed job limit _ page h ht hvisible hfull hcached =>
    obtain ⟨-, hle⟩ := Engine.nextPlace_page hnext
    rcases Nat.lt_or_eq_of_le (Nat.le_of_lt_succ (Nat.lt_of_lt_of_le hi hle)) with hlt | rfl
    · exact hbehind i hlt
    · rw [← htable]
      exact ⟨page.grid, congrArg (Option.map Page.grid) hvisible, hfull⟩
  | overtaken =>
    obtain ⟨-, hle⟩ := Engine.nextPlace_page hnext
    exact hbehind i (Nat.lt_of_lt_of_le hi hle)
  | _ => cases hnext

theorem filled_step (hw : w.Filled) (hs : w.step event = some w') : w'.Filled := by
  have hc := hw.lined.tasked.coherent
  refine ⟨lined_step hw.lined hs, fun u b table tuple hu ho i hi => ?_⟩
  -- whoever was busy before, with the same request
  have held : ∀ {b' : Activity}, w.active[u]? = some b' → b'.operation = b.operation →
      b'.request = b.request → ∃ g, w'.engine.content? ⟨table, i⟩ = some g ∧ g.Full := by
    intro b' hb' hoperation hrequest
    have hoperation := hoperation.trans ho
    rw [← hrequest] at hi
    obtain ⟨-, howns⟩ := hw.lined.behind u b' table tuple hb' hoperation
    obtain ⟨g, hg, hfull⟩ := hw.behind u b' table tuple hb' hoperation i hi
    have hsteady := steady_of_busy hw.lined.tasked hs hb' hu ⟨table, i⟩ (howns i hi).2
    exact ⟨g, hsteady.2 g hg, hfull⟩
  cases happens hs with
  | @begun v ticket operation q mode purpose hidle hproper hb =>
    dsimp only at hu
    rw [getElem?_active_insert] at hu
    split at hu
    · cases hu
      obtain rfl : operation = .insert table tuple := ho
      rw [(Engine.begin_insert hc.engine.catalog hb).2] at hi
      exact absurd hi (Nat.not_lt_zero i)
    · exact held hu rfl rfl
  | @turned v which a ha =>
    rcases active_turned ha hu with ⟨b', hb', hoperation, hrequest⟩ | ⟨rfl, hn, hoperation⟩
    · exact held hb' hoperation hrequest
    · rw [engine_turned]
      exact (filled_next hw ha hn (hoperation.symm.trans ho)).2 i hi
  | _ => exact held hu rfl rfl

theorem filled_of_reachable {allowed : Event → Prop} {start : World} (h0 : start.Filled)
    (h : Reachable allowed start w) : w.Filled := by
  induction h with
  | start => exact h0
  | step event _ _ hs ih => exact filled_step ih hs

/-! ## The last turn -/

/-- An insert makes the requests of an insert, each for a page to itself. -/
theorem makes_insert {r : LockRequest Purpose} {s : Store} (h : (Operation.insert table tuple).Makes r)
    (hr : r.Proper s) : ∃ job, job.tuple = tuple ∧ r.purpose.Inserts job ∧ r.mode = .exclusive := by
  obtain ⟨u, p, mode, purpose⟩ := r
  cases purpose with
  | place job limit =>
    obtain ⟨_, h⟩ := h
    cases h
    exact ⟨job, rfl, .place, hr.2.2⟩
  | append job =>
    obtain ⟨_, h⟩ := h
    cases h
    exact ⟨job, rfl, .append, hr.2.2⟩
  | _ => cases h

theorem puts_turn (hw : w.Filled) (ha : w.active[t]? = some a) {which : Turn} {outcome : Outcome}
    (hr : (w.engine.turn a.ticket a.request which).2 = .done (.ok outcome))
    (ho : a.operation = .insert table tuple) :
    ∃ p slot, p.table = table ∧
      Engine.Puts t p slot tuple.fields w.engine (w.engine.turn a.ticket a.request which).1 := by
  have hc := hw.lined.tasked.coherent
  have hproper := (hc.active t a ha).2
  obtain ⟨job, rfl, hinserts, hx⟩ := makes_insert (ho ▸ hw.lined.tasked.active t a ha) hproper
  obtain ⟨rfl, howns⟩ := hw.lined.behind t a _ _ ha ho
  have hbehind := hw.behind t a _ _ ha ho
  have hb : (w.granted a which).Backed := hc.engine.toBacked.withLocks _
  obtain ⟨hown, hserved⟩ := served_of_ok hc ha hr
  obtain ⟨slot, hlays⟩ := hserved.lays hb hproper hinserts rfl
  refine ⟨a.request.page, slot, rfl, ⟨hlays.lowest, hlays.others, hlays.within, hlays.grown,
    hlays.lengths⟩, fun i hi => ?_, fun i hi => ?_⟩
  · rw [hlays.others _ fun he => Nat.ne_of_lt hi (congrArg PageId.index he)]
    exact hbehind i hi
  · rw [hserved.locks]
    rcases Nat.lt_or_eq_of_le hi with hi | rfl
    · exact (howns i hi).request a.ticket a.request which
    · exact hown hx

/-! ## Calls -/

/-- `t` is busy with the operation. -/
def Busy (w : World) (t : TxnId) (operation : Operation) : Prop :=
  ∃ a, w.active[t]? = some a ∧ a.operation = operation

/-- What is recorded of an event: the engine before and after it, if it is a turn of `t`. -/
def recorded (t : TxnId) (event : Event) (w w' : World) : List (Engine × Engine) :=
  match event with
  | .turn u _ => if u = t then [(w.engine, w'.engine)] else []
  | _ => []

/-- The rest of a call of `t` that is under way, up to its last turn. Others act in between.
`moves` are the engines before and after each turn of `t`. -/
inductive Call (t : TxnId) (operation : Operation) :
    World → List (Engine × Engine) → Except Error Outcome → World → Prop
  | ended {w w' : World} {a : Activity} {which : Turn} {result : Except Error Outcome}
      (ha : w.active[t]? = some a) (ho : a.operation = operation)
      (hs : w.step (.turn t which) = some w')
      (hr : (w.engine.turn a.ticket a.request which).2 = .done result) :
      Call t operation w [(w.engine, w'.engine)] result w'
  | goes {w w1 w' : World} {event : Event} {moves : List (Engine × Engine)}
      {result : Except Error Outcome} (hbusy : w.Busy t operation) (hs : w.step event = some w1)
      (rest : Call t operation w1 moves result w') :
      Call t operation w (recorded t event w w1 ++ moves) result w'

theorem Call.busy {operation : Operation} {moves : List (Engine × Engine)}
    {result : Except Error Outcome} (h : Call t operation w moves result w') : w.Busy t operation := by
  cases h with
  | ended ha ho => exact ⟨_, ha, ho⟩
  | goes hbusy => exact hbusy

/-- Who falls asleep has changed nothing. -/
theorem quiet_asleep (hw : w.Coherent) (ha : w.active[t]? = some a) {which : Turn}
    (h : (w.engine.turn a.ticket a.request which).2 = .asleep) :
    Engine.Quiet w.engine (w.engine.turn a.ticket a.request which).1 := by
  rcases turn_served hw ha which with ⟨advance, hp, -⟩ | ⟨-, -, hturn⟩
  · rw [hp] at h
    cases advance <;> cases h
  · have hquiet := hturn.quiet (hw.engine.toBacked.withLocks _)
    exact ⟨hquiet.store, hquiet.content⟩

/-- A turn of an insert that is not its last changes nothing. -/
theorem quiet_of_recorded (hw : w.Filled) (hs : w.step event = some w')
    (hbusy : w.Busy t (.insert table tuple)) (hafter : w'.Busy t (.insert table tuple)) :
    ∀ m ∈ recorded t event w w', Engine.Quiet m.1 m.2 := by
  intro m hm
  unfold recorded at hm
  split at hm
  · next u which =>
    split at hm
    · next hu =>
      subst hu
      obtain rfl := List.mem_singleton.1 hm
      obtain ⟨a, ha, ho⟩ := hbusy
      obtain ⟨b, hb, -⟩ := hafter
      obtain ⟨a', ha', rfl⟩ := turn_step hs
      cases ha.symm.trans ha'
      rw [engine_turned]
      cases hp : (w.engine.turn a.ticket a.request which).2 with
      | done result =>
        rw [hp, turned, getElem?_active_erase, if_pos rfl] at hb
        cases hb
      | next r => exact (filled_next hw ha hp ho).1
      | asleep => exact quiet_asleep hw.lined.tasked.coherent ha hp
    · cases hm
  · cases hm

/-- Every call of an insert that succeeds, looked at from its beginning or from any later point
on, puts its row on a page with its last turn, and none of its earlier turns changes anything. -/
def InsertsPut (start : World) : Prop :=
  ∀ {w w' : World} {t : TxnId} {table : TableId} {tuple : Tuple} {moves : List (Engine × Engine)}
    {outcome : Outcome}, Reachable (fun _ => True) start w →
    Call t (.insert table tuple) w moves (.ok outcome) w' →
    ∃ earlier e p slot, moves = earlier ++ [(e, w'.engine)] ∧ (∀ m ∈ earlier, Engine.Quiet m.1 m.2) ∧
      p.table = table ∧ Engine.Puts t p slot tuple.fields e w'.engine

theorem Call.puts {moves : List (Engine × Engine)} {result : Except Error Outcome}
    (h : Call t (.insert table tuple) w moves result w') (hw : w.Filled) {outcome : Outcome}
    (hr : result = .ok outcome) :
    ∃ earlier e p slot, moves = earlier ++ [(e, w'.engine)] ∧ (∀ m ∈ earlier, Engine.Quiet m.1 m.2) ∧
      p.table = table ∧ Engine.Puts t p slot tuple.fields e w'.engine := by
  induction h with
  | @ended w w' a which result ha ho hs hresult =>
    subst hr
    obtain ⟨a', ha', rfl⟩ := turn_step hs
    cases ha.symm.trans ha'
    obtain ⟨p, slot, htable, hputs⟩ := puts_turn hw ha hresult ho
    rw [engine_turned]
    exact ⟨[], w.engine, p, slot, rfl, by simp, htable, hputs⟩
  | @goes w w1 w' event moves result hbusy hs rest ih =>
    obtain ⟨earlier, e, p, slot, rfl, hquiet, htable, hputs⟩ := ih (filled_step hw hs) hr
    refine ⟨recorded t event w w1 ++ earlier, e, p, slot, (List.append_assoc ..).symm, ?_, htable, hputs⟩
    exact List.forall_mem_append.2 ⟨quiet_of_recorded hw hs hbusy rest.busy, hquiet⟩

theorem inserts_fill_first_gap {store : Store} (hs : store.catalog.Sound) {capacity : Nat}
    {policy : DeadlockPolicy} {pool : Pool} (hp : Pool.new capacity policy = .ok pool) :
    InsertsPut (fresh store pool) :=
  fun hw h => h.puts (filled_of_reachable (filled_fresh hs hp) hw) rfl

/-! ## Calls that are run -/

/-- The rest of a call of `t`: the events before its last turn, and that turn. -/
def call? (t : TxnId) (operation : Operation) (w : World) (events : List Event) (which : Turn) :
    Option (List (Engine × Engine) × Except Error Outcome × World) :=
  match w.active[t]? with
  | none => none
  | some a =>
    if a.operation = operation then
      match events with
      | [] =>
        match (w.engine.turn a.ticket a.request which).2 with
        | .done result =>
          (w.step (.turn t which)).map fun w' => ([(w.engine, w'.engine)], result, w')
        | _ => none
      | event :: events =>
        (w.step event).bind fun w1 =>
          (call? t operation w1 events which).map fun (moves, result, w') =>
            (recorded t event w w1 ++ moves, result, w')
    else none

theorem call_of_call? {operation : Operation} {which : Turn} :
    ∀ (events : List Event) {w w' : World} {moves : List (Engine × Engine)}
      {result : Except Error Outcome}, call? t operation w events which = some (moves, result, w') →
      Call t operation w moves result w'
  | [], w, w', moves, result, h => by
    unfold call? at h
    split at h
    · cases h
    · next a ha =>
      split at h
      · next ho =>
        dsimp only at h
        split at h
        · next hr =>
          obtain ⟨w1, hs, h⟩ := Option.map_eq_some_iff.1 h
          cases h
          exact .ended ha ho hs hr
        · cases h
      · cases h
  | event :: events, w, w', moves, result, h => by
    unfold call? at h
    split at h
    · cases h
    · next a ha =>
      split at h
      · next ho =>
        obtain ⟨w1, hs, h⟩ := Option.bind_eq_some_iff.1 h
        obtain ⟨⟨moves1, _⟩, hrest, h⟩ := Option.map_eq_some_iff.1 h
        cases h
        exact .goes ⟨a, ha, ho⟩ hs (call_of_call? events hrest)
      · cases h

/-- Two inserts find an empty table. One of them waits for the other to append the first page;
it then has to look at that page, which is full, and appends the second. -/
theorem inserts_fill_first_gap_overtaken :
    let store := Engine.slimStore .extendEmpty
    let insert : Operation := .insert (.numbered 1) (sampleRow 6)
    store.catalog.Sound ∧ Pool.new 2 .cycleDetection = .ok samplePool ∧
      ∃ w moves outcome w', Reachable (fun _ => True) (fresh store samplePool) w ∧
        Call 2 insert w moves (.ok outcome) w' ∧ moves.length = 4 ∧
        w'.engine.content? (samplePage 1) = some [some [.int 6]] ∧
        ∃ earlier e p slot, moves = earlier ++ [(e, w'.engine)] ∧
          (∀ m ∈ earlier, Engine.Quiet m.1 m.2) ∧ p.table = .numbered 1 ∧
          Engine.Puts 2 p slot [.int 6] e w'.engine := by
  intro store insert
  have hrun : (((fresh store samplePool).run [.start 2 0 insert]).bind fun w =>
      (call? 2 insert w
        [.start 1 1 (.insert (.numbered 1) (sampleRow 5)), .turn 1 .first, .turn 2 .first, .keep 1,
          .turn 2 .woken, .turn 2 .first] .first).map fun c =>
        (c.1.length == 4 && c.2.1.isOk, c.2.2.engine.content? (samplePage 1))) =
      some (true, some [some [.int 6]]) := by decide +kernel
  obtain ⟨w, hw, h⟩ := Option.bind_eq_some_iff.1 hrun
  obtain ⟨⟨moves, result, w'⟩, hcall, h⟩ := Option.map_eq_some_iff.1 h
  obtain ⟨hdone, hcontent⟩ := Prod.mk.inj h
  obtain ⟨hlength, hok⟩ := Bool.and_eq_true_iff.1 hdone
  cases result with
  | error => cases hok
  | ok outcome =>
    have hnew : Pool.new 2 .cycleDetection = .ok samplePool := rfl
    have hreached := reachable_of_run _ .start (fun _ _ => trivial) hw
    have hcall := call_of_call? _ hcall
    exact ⟨Engine.sound_slimStore _, hnew, w, moves, outcome, w', hreached, hcall,
      beq_iff_eq.1 hlength, hcontent,
      inserts_fill_first_gap (Engine.sound_slimStore _) hnew hreached hcall⟩

/-- Where tables share a file, the cached page of one of them may be out of date. An insert finds
it full and passes it. It then leaves the cache to make room, and shows the free slot that the
other table has left there. -/
theorem exists_gap_passed :
    ∃ start : World, Pool.new 2 .cycleDetection = .ok start.engine.pool ∧ ¬InsertsPut start := by
  refine ⟨fresh Engine.sharedStore samplePool, rfl, fun hputs => ?_⟩
  let insert : Operation := .insert (.numbered 1) (sampleRow 6)
  have hrun : (((fresh Engine.sharedStore samplePool).run
      [.start 1 0 (.fetch (samplePage 0) .shared), .turn 1 .first, .keep 1,
        .start 2 1 (.delete (some ⟨⟨.numbered 2, 0⟩, 0⟩)), .turn 2 .first, .keep 2,
        .start 3 2 insert]).bind fun w =>
      (call? 3 insert w [.turn 3 .first, .turn 3 .first, .turn 3 .first] .first).map fun c =>
        (c.2.1.isOk, c.2.2.engine.content? (samplePage 0))) = some (true, some [none]) := by
    decide +kernel
  obtain ⟨w, hw, h⟩ := Option.bind_eq_some_iff.1 hrun
  obtain ⟨⟨moves, x | outcome, w'⟩, hcall, h⟩ := Option.map_eq_some_iff.1 h
  · cases h
  · have hempty := (Prod.mk.inj h).2
    obtain ⟨-, e, ⟨table, index⟩, slot, -, -, rfl, hputs⟩ :=
      hputs (reachable_of_run _ .start (fun _ _ => trivial) hw) (call_of_call? _ hcall)
    cases index with
    | zero =>
      obtain ⟨g, -, hfree, -, hset⟩ := hputs.lowest
      have hg : [none] = g.set slot (some [.int 6]) := Option.some.inj (hempty.symm.trans hset)
      have hlt := (List.getElem?_eq_some_iff.1 hfree).1
      have hrow : ([none] : Grid)[slot]? = some (some [.int 6]) := by
        rw [hg, List.getElem?_set_self hlt]
      cases slot <;> simp at hrow
    | succ index =>
      obtain ⟨g, hg, hfull⟩ := hputs.full 0 (Nat.succ_pos index)
      cases hempty.symm.trans hg
      exact absurd (hfull none (by simp)) (by decide)

end World
end PageStore
