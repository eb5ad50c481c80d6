import PageStore.Proofs.Page.Calls

/-!
# Every row is where its record id says

Calls change a page in place, and a call that fails leaves behind what it had changed
by then. An insert asks its questions before it changes anything. A delete does not: it
empties the slot that the record names, and complains afterwards if nothing was in it.
But emptying a free slot changes nothing, so no call that fails leaves a trace, and calls
in place come to the same as calls that hand out a new page.

A row gets into a page by an insert or from its bytes. Either way it gets the record id of
its slot, and it stays there until it is deleted. A record id that a caller brings may
name anything: page and slot are looked up when it is used.

Results:
* `inPlace_put`, `inPlace_take`: what is left of the page by a call in place.
* `freeSlot?_eq_some_iff`: the slot that an insert takes is the lowest free one.
* `take_put`: deleting what was just inserted brings the page back.
* `slots_accounted`: the slots of every page in use, and what each call does to them.
-/
namespace PageStore.Page

/-! ## Calls in place -/

/-- Work on a page that may fail; what was changed by then stays changed. -/
abbrev Work := ExceptT Error (StateM Page)

/-- The answer of some work, and the page after it. -/
def inPlace {α : Type} (work : Work α) (p : Page) : Except Error α × Page := work.run.run p

/-- Puts a row into the page that was found. -/
def putInto (p : Page) (t : Tuple) : Work RecordId := do
  unless t.layout.agrees p.layout do throw (.schemaMismatch p.id.table)
  let some slot := p.freeSlot? | throw (.pageFull p.id)
  let r : RecordId := ⟨p.id, slot⟩
  set { p with slots := p.slots.set slot (some { t with record := some r }) }
  return r

/-- Puts a row into the lowest free slot. -/
def put (t : Tuple) : Work RecordId := do putInto (← get) t

/-- Empties the slot of a record in the page that was found, and then looks at what
was in it. -/
def takeFrom (p : Page) (r : RecordId) : Work Unit := do
  unless r.page = p.id do throw (.invalidArgument (.foreignRecord r.page p.id))
  let some held := p.slots[r.slot]? | throw (.invalidArgument (.noSuchSlot r.page r.slot))
  set { p with slots := p.slots.set r.slot none }
  if held.isNone then throw (.slotEmpty p.id r.slot)

/-- Empties the slot of a record. -/
def take (record : Option RecordId) : Work Unit := do
  let some r := record | throw .missingRecordId
  takeFrom (← get) r

/-- Makes a call. -/
def perform : Call → Work Unit
  | .insert t _ => discard (put t)
  | .delete record => take record
  | .mark txn => modify fun p => p.withDirtier txn

/-- The page after some calls, whether they succeed or fail. -/
def performAll (p : Page) (calls : List Call) : Page :=
  calls.foldl (fun p call => (inPlace (perform call) p).2) p

theorem inPlace_put (p : Page) (t : Tuple) :
    inPlace (put t) p = match p.insert t with
      | .ok (q, r) => (.ok r, q)
      | .error e => (.error e, p) := by
  have hput : inPlace (put t) p = inPlace (putInto p t) p := rfl
  rw [hput, putInto, insert]
  cases t.layout.agrees p.layout with
  | false => rfl
  | true => cases p.freeSlot? <;> rfl

/-- Emptying a slot that is free changes nothing, so a delete that finds it so has
left the page as it was. -/
theorem inPlace_take (p : Page) (record : Option RecordId) :
    inPlace (take record) p = match p.delete record with
      | .ok q => (.ok (), q)
      | .error e => (.error e, p) := by
  cases record with
  | none => rfl
  | some r =>
  have htake : inPlace (take (some r)) p = inPlace (takeFrom p r) p := rfl
  rw [htake, takeFrom, delete]
  by_cases hid : r.page = p.id
  · rw [if_pos hid, if_neg (not_not_intro hid)]
    cases hs : p.slots[r.slot]? with
    | none => rfl
    | some held =>
      cases held with
      | some t => rfl
      | none =>
        obtain ⟨hlt, hfree⟩ := List.getElem?_eq_some_iff.1 hs
        have hsame : p.slots.set r.slot none = p.slots := by
          rw [← hfree]
          exact List.set_getElem_self hlt
        show (_, { p with slots := p.slots.set r.slot none }) = _
        rw [hsame]
  · rw [if_neg hid, if_pos hid]
    rfl

theorem inPlace_discard {α : Type} (work : Work α) (p : Page) :
    inPlace (discard work) p = ((inPlace work p).1.map fun _ => (), (inPlace work p).2) := by
  change inPlace ((fun _ => ()) <$> work) p = _
  rw [inPlace, ExceptT.run_map, StateT.run_map]
  rfl

theorem inPlace_perform (p : Page) (call : Call) : (inPlace (perform call) p).2 = p.after call := by
  cases call with
  | insert t made =>
    rw [perform, inPlace_discard, inPlace_put, after]
    cases p.insert t <;> rfl
  | delete record =>
    rw [perform, inPlace_take, after]
    cases p.delete record <;> rfl
  | mark txn => rfl

theorem performAll_eq_afterAll (p : Page) (calls : List Call) :
    p.performAll calls = p.afterAll calls := by
  unfold performAll afterAll
  congr 1
  funext q call
  exact inPlace_perform q call

/-- A call that fails leaves no trace. -/
theorem eq_of_failed {p : Page} {call : Call} {e : Error}
    (h : (inPlace (perform call) p).1 = .error e) : (inPlace (perform call) p).2 = p := by
  cases call with
  | insert t made =>
    rw [perform, inPlace_discard, inPlace_put] at h ⊢
    cases hi : p.insert t with
    | ok filled =>
      rw [hi] at h
      cases h
    | error x => rfl
  | delete record =>
    rw [perform, inPlace_take] at h ⊢
    cases hd : p.delete record with
    | ok emptied =>
      rw [hd] at h
      cases h
    | error x => rfl
  | mark txn => cases h

/-! ## Used and free slots -/

variable {p q : Page} {t : Tuple}

theorem isUsed_eq_false_iff {i : Nat} (hi : i < p.slots.length) :
    p.isUsed i = false ↔ p.slots[i].isNone = true := by
  rw [isUsed, row?, List.getElem?_eq_getElem hi]
  cases p.slots[i] <;> simp

theorem freeSlot?_eq_some_iff {slot : Nat} : p.freeSlot? = some slot ↔
    slot < p.slots.length ∧ p.isUsed slot = false ∧ ∀ j < slot, p.isUsed j = true := by
  rw [freeSlot?, List.findIdx?_eq_some_iff_getElem]
  constructor
  · rintro ⟨hlt, hfree, hbefore⟩
    refine ⟨hlt, (isUsed_eq_false_iff hlt).2 hfree, fun j hj => ?_⟩
    have hj' : j < p.slots.length := Nat.lt_trans hj hlt
    rw [← Bool.not_eq_false, isUsed_eq_false_iff hj']
    exact hbefore j hj
  · rintro ⟨hlt, hfree, hbefore⟩
    refine ⟨hlt, (isUsed_eq_false_iff hlt).1 hfree, fun j hj => ?_⟩
    have hj' : j < p.slots.length := Nat.lt_trans hj hlt
    rw [← isUsed_eq_false_iff hj', Bool.not_eq_false]
    exact hbefore j hj

theorem freeSlot?_eq_none_iff_isUsed : p.freeSlot? = none ↔ ∀ i < p.slots.length, p.isUsed i = true := by
  rw [freeSlot?_eq_none_iff, List.forall_mem_iff_forall_getElem]
  refine forall₂_congr fun i hi => ?_
  rw [isUsed, row?, List.getElem?_eq_getElem hi]
  cases p.slots[i] <;> simp

theorem slots_eq_map (p : Page) : p.slots = (List.range p.slots.length).map p.row? := by
  refine List.ext_getElem (by simp) fun i hi _ => ?_
  rw [List.getElem_map, List.getElem_range, row?, List.getElem?_eq_getElem hi]
  rfl

/-- Every slot is used or free. -/
theorem used_add_freeCount (p : Page) :
    ((List.range p.slots.length).filter p.isUsed).length + p.freeCount = p.slots.length := by
  have hfree : p.freeCount = (List.range p.slots.length).countP fun i => !p.isUsed i := by
    rw [freeCount, slots_eq_map, List.countP_map, List.length_map, List.length_range]
    refine List.countP_congr fun i _ => ?_
    rw [Function.comp_apply, isUsed]
    cases p.row? i <;> simp
  have hsplit := List.length_eq_countP_add_countP p.isUsed (l := List.range p.slots.length)
  rw [List.length_range] at hsplit
  rw [hfree, ← List.countP_eq_length_filter]
  simpa using hsplit.symm

/-! ## What calls do to the slots -/

/-- The second page is the first with one slot filled or freed. -/
structure DiffersAt (p q : Page) (slot : Nat) (row : Option Tuple) : Prop where
  shape : SameShape p q
  dirtier : q.dirtier = p.dirtier
  length : q.slots.length = p.slots.length
  there : q.row? slot = row
  elsewhere : ∀ j, j ≠ slot → q.row? j = p.row? j

theorem differsAt_set {slot : Nat} (hlt : slot < p.slots.length) (row : Option Tuple) :
    DiffersAt p { p with slots := p.slots.set slot row } slot row := by
  refine ⟨⟨rfl, rfl, rfl⟩, rfl, List.length_set, ?_, fun j hj => ?_⟩
  · rw [row?, List.getElem?_set_self hlt]
    rfl
  · rw [row?, row?, List.getElem?_set_ne (Ne.symm hj)]

/-- The row as it is stored in a slot of the page. -/
def placed (p : Page) (t : Tuple) (slot : Nat) : Tuple := { t with record := some ⟨p.id, slot⟩ }

/-- What inserting a row does: it fills the lowest free slot, if there is one and the
row is of the page's layout. -/
structure Inserts (p : Page) (t : Tuple) : Prop where
  mismatch : t.layout.agrees p.layout = false →
    inPlace (put t) p = (.error (.schemaMismatch p.id.table), p)
  full_iff : t.layout.agrees p.layout = true →
    ((inPlace (put t) p).1 = .error (.pageFull p.id) ↔ ∀ i < p.slots.length, p.isUsed i = true)
  lowest : t.layout.agrees p.layout = true → ∀ i < p.slots.length, p.isUsed i = false →
    ∃ slot q, inPlace (put t) p = (.ok ⟨p.id, slot⟩, q) ∧ p.isUsed slot = false ∧
      (∀ j < slot, p.isUsed j = true) ∧ DiffersAt p q slot (some (p.placed t slot))

theorem inPlace_put_of_mismatch (ha : t.layout.agrees p.layout = false) :
    inPlace (put t) p = (.error (.schemaMismatch p.id.table), p) := by
  rw [inPlace_put, insert, ha]
  rfl

theorem inPlace_put_of_full (ha : t.layout.agrees p.layout = true) (hs : p.freeSlot? = none) :
    inPlace (put t) p = (.error (.pageFull p.id), p) := by
  rw [inPlace_put, insert, ha, hs]
  rfl

theorem inPlace_put_of_free (ha : t.layout.agrees p.layout = true) {slot : Nat}
    (hs : p.freeSlot? = some slot) : inPlace (put t) p =
      (.ok ⟨p.id, slot⟩, { p with slots := p.slots.set slot (some (p.placed t slot)) }) := by
  rw [inPlace_put, insert, ha, hs]
  rfl

theorem inserts (p : Page) (t : Tuple) : Inserts p t := by
  refine ⟨inPlace_put_of_mismatch, fun ha => ?_, fun ha i hi hfree => ?_⟩
  · rw [← freeSlot?_eq_none_iff_isUsed]
    constructor
    · intro h
      cases hs : p.freeSlot? with
      | none => rfl
      | some slot =>
        rw [inPlace_put_of_free ha hs] at h
        cases h
    · intro hs
      rw [inPlace_put_of_full ha hs]
  · cases hs : p.freeSlot? with
    | none =>
      rw [freeSlot?_eq_none_iff_isUsed.1 hs i hi] at hfree
      cases hfree
    | some slot =>
      obtain ⟨hlt, hfree, hbefore⟩ := freeSlot?_eq_some_iff.1 hs
      exact ⟨slot, _, inPlace_put_of_free ha hs, hfree, hbefore, differsAt_set hlt _⟩

/-- What deleting a record does: it frees the slot, if it is a used one of the page. -/
structure Deletes (p : Page) (record : Option RecordId) : Prop where
  succeeds_iff : (inPlace (take record) p).1 = .ok () ↔
    ∃ slot, record = some ⟨p.id, slot⟩ ∧ p.isUsed slot = true
  frees : ∀ slot, record = some ⟨p.id, slot⟩ → p.isUsed slot = true →
    DiffersAt p (inPlace (take record) p).2 slot none

theorem isUsed_iff {slot : Nat} : p.isUsed slot = true ↔ ∃ t, p.slots[slot]? = some (some t) := by
  rw [isUsed, Option.isSome_iff_exists]
  exact exists_congr fun t => row?_eq_some_iff

/-- A delete that names a used slot of the page frees it. -/
theorem inPlace_take_of_isUsed {slot : Nat} (hused : p.isUsed slot = true) :
    inPlace (take (some ⟨p.id, slot⟩)) p = (.ok (), { p with slots := p.slots.set slot none }) := by
  obtain ⟨t, ht⟩ := isUsed_iff.1 hused
  rw [inPlace_take, delete, if_neg (not_not_intro rfl), ht]

theorem deletes (p : Page) (record : Option RecordId) : Deletes p record := by
  refine ⟨⟨fun h => ?_, ?_⟩, ?_⟩
  · cases hd : p.delete record with
    | error e =>
      rw [inPlace_take, hd] at h
      cases h
    | ok q =>
      obtain ⟨⟨page, slot⟩, rfl, rfl, ht, -⟩ := delete_eq_ok hd
      exact ⟨slot, rfl, isUsed_iff.2 ht⟩
  · rintro ⟨slot, rfl, hused⟩
    rw [inPlace_take_of_isUsed hused]
  · rintro slot rfl hused
    obtain ⟨t, ht⟩ := isUsed_iff.1 hused
    have hlt : slot < p.slots.length := (List.getElem?_eq_some_iff.1 ht).1
    rw [inPlace_take_of_isUsed hused]
    exact differsAt_set hlt none

/-- Deleting what was just inserted brings the page back. -/
theorem take_put {r : RecordId} (h : inPlace (put t) p = (.ok r, q)) :
    inPlace (take (some r)) q = (.ok (), p) := by
  cases ha : t.layout.agrees p.layout with
  | false =>
    rw [inPlace_put_of_mismatch ha] at h
    cases h
  | true =>
  cases hs : p.freeSlot? with
  | none =>
    rw [inPlace_put_of_full ha hs] at h
    cases h
  | some slot =>
  rw [inPlace_put_of_free ha hs] at h
  cases h
  obtain ⟨hlt, hfree, -⟩ := freeSlot?_eq_some_iff.1 hs
  have hused : isUsed { p with slots := p.slots.set slot (some (p.placed t slot)) } slot = true := by
    rw [isUsed, (differsAt_set hlt _).there]
    rfl
  have hback : p.slots.set slot none = p.slots := by
    rw [← Option.isNone_iff_eq_none.1 ((isUsed_eq_false_iff hlt).1 hfree)]
    exact List.set_getElem_self hlt
  rw [inPlace_take_of_isUsed hused, List.set_set, hback]

/-! ## Pages in use -/

/-- How a page begins: with all slots free, or read from bytes. -/
inductive Given : Page → Prop
  | empty (id : PageId) (layout : Layout) (size : Nat) : Given (empty id layout size)
  | read {id : PageId} {layout : Layout} {size : Nat} {bytes : List UInt8} {p : Page}
      (h : decode id layout size bytes = .ok p) : Given p

theorem Given.sound (h : Given p) : p.Sound := by
  cases h with
  | empty id layout size => exact sound_empty id layout size
  | read h => exact sound_decode h

/-- Whatever calls were made on a page, whether they succeeded or failed: it has the
slots of its size and layout; every row in it follows the layout, fits, and has the
record id of its slot; every slot is used or free; an insert fills the lowest free slot
and fails only if there is none; a delete frees the slot of a used record of the page
and fails for every other; deleting what was just inserted brings the page back; and a
call that fails leaves the page as it was. -/
theorem slots_accounted {start : Page} (hs : Given start) (calls : List Call) :
    let p := start.performAll calls
    SameShape start p ∧
    p.slots.length = Geometry.slotCount p.size p.layout.width ∧
    (∀ i t, p.row? i = some t → t.layout.agrees p.layout = true ∧ t.Sound ∧ t.record = some ⟨p.id, i⟩) ∧
    ((List.range p.slots.length).filter p.isUsed).length + p.freeCount = p.slots.length ∧
    (∀ t, Inserts p t) ∧
    (∀ record, Deletes p record) ∧
    (∀ t r q, inPlace (put t) p = (.ok r, q) → inPlace (take (some r)) q = (.ok (), p)) ∧
    ∀ call e, (inPlace (perform call) p).1 = .error e → (inPlace (perform call) p).2 = p := by
  intro p
  have hp : p = start.afterAll calls := performAll_eq_afterAll start calls
  have hshape : SameShape start p := hp ▸ sameShape_afterAll calls start
  have hsound : p.Sound := hp ▸ sound_afterAll calls hs.sound
  refine ⟨hshape, hsound.length, fun i t ht => ?_, used_add_freeCount p, inserts p, deletes p,
    fun t r q => take_put, fun call e => eq_of_failed⟩
  obtain ⟨hrecord, hlayout, hrow⟩ := hsound.row i t (row?_eq_some_iff.1 ht)
  exact ⟨Layout.agrees_iff.2 hlayout, hrow, hrecord⟩

/-- A page that was read: one of its two slots is used. -/
def readPage : Page :=
  ⟨⟨.numbered 1, 0⟩, .ofTypes [.int], 13,
    [none, some ⟨.ofTypes [.int], [.int 9], some ⟨⟨.numbered 1, 0⟩, 1⟩⟩], none⟩

/-- A row of another layout, a record of another page, a free slot and no slot at all are
refused. Then the page is filled, a row is one too many, and the row that was read goes. -/
def triedCalls : List Call :=
  [.insert ⟨.ofTypes [.text], [.text "a"], none⟩ (by decide), .delete (some ⟨⟨.numbered 2, 0⟩, 1⟩),
    .delete (some ⟨⟨.numbered 1, 0⟩, 0⟩), .delete (some ⟨⟨.numbered 1, 0⟩, 2⟩), .delete none,
    .insert ⟨.ofTypes [.int], [.int 4], none⟩ rfl, .insert ⟨.ofTypes [.int], [.int 5], none⟩ rfl,
    .mark (some 7), .delete (some ⟨⟨.numbered 1, 0⟩, 1⟩)]

theorem slots_accounted_triedCalls :
    let p := readPage.performAll triedCalls
    let t : Tuple := ⟨.ofTypes [.int], [.int 6], none⟩
    Given readPage ∧ p.isUsed 0 = true ∧ p.isUsed 1 = false ∧
      (∃ q, inPlace (put t) p = (.ok ⟨p.id, 1⟩, q) ∧ q.row? 0 = p.row? 0 ∧
        inPlace (take (some ⟨p.id, 1⟩)) q = (.ok (), p)) ∧
      (inPlace (take (some ⟨p.id, 1⟩)) p).1 ≠ .ok () := by
  intro p t
  have hread : decode ⟨.numbered 1, 0⟩ (.ofTypes [.int]) 13 [0, 0, 0, 0, 2, 0, 0, 0, 0, 0, 0, 0, 9] =
      .ok readPage := by decide +kernel
  have hused : p.isUsed 0 = true := by decide +kernel
  have hfree : p.isUsed 1 = false := by decide +kernel
  obtain ⟨-, -, -, -, hinserts, hdeletes, hback, -⟩ := slots_accounted (.read hread) triedCalls
  obtain ⟨slot, q, hput, hslot, hbefore, hdiffers⟩ :=
    (hinserts t).lowest (by decide +kernel) 1 (by decide +kernel) hfree
  have hone : slot = 1 := by
    have hzero : slot ≠ 0 := by
      rintro rfl
      cases hused.symm.trans hslot
    have hle : ¬1 < slot := fun hlt => by cases (hbefore 1 hlt).symm.trans hfree
    omega
  subst hone
  refine ⟨.read hread, hused, hfree, ⟨q, hput, hdiffers.elsewhere 0 (by decide), hback t _ q hput⟩, ?_⟩
  intro hok
  obtain ⟨_, hr, hu⟩ := (hdeletes _).succeeds_iff.1 hok
  cases hr
  cases hu.symm.trans hfree

end PageStore.Page
