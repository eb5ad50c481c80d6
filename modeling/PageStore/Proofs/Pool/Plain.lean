import PageStore.Proofs.Page.RoundTrip
import PageStore.Scan.Cursor

/-!
# What a client sees

A row that was inserted keeps the names that its columns had then, and a row that was read
has those of its table. Nothing hangs on them: the `plain` form of a row, a page, an outcome or an
item leaves them out, and leaves out in which frame of the cache a page stands.
Everything else is kept, so what is equal in plain form is the same to a client.

Results:
* `Sound.plain_eq`, `Sound.plain_rows`: the grid of a sound page decides what is seen of it.
* `insert_plain`, `delete_plain`: a change does the same to what is seen of a page.
* `image_plain`: pages that look the same are stored as the same bytes.
-/
namespace PageStore

theorem except_map_eq_map {α β ε : Type} {f : α → β} {x y : Except ε α} (h : x.map f = y.map f) :
    (∃ e, x = .error e ∧ y = .error e) ∨ ∃ a b, x = .ok a ∧ y = .ok b ∧ f a = f b := by
  cases x with
  | error e =>
    cases y with
    | error e' => exact .inl ⟨e, rfl, congrArg Except.error (Except.error.inj h).symm⟩
    | ok b => cases h
  | ok a =>
    cases y with
    | error e' => cases h
    | ok b => exact .inr ⟨a, b, rfl, rfl, Except.ok.inj h⟩

/-- The row without the names of its columns. -/
def Tuple.plain (t : Tuple) : Tuple := { t with layout := .ofTypes t.layout.types }

@[simp] theorem Tuple.plain_plain (t : Tuple) : t.plain.plain = t.plain := by
  simp [plain]

/-- The rows that a grid shows at a place, without the names of columns. -/
def Grid.rows (g : Grid) (p : PageId) : List Tuple :=
  g.zipIdx.filterMap fun s => s.1.map fun fields =>
    ⟨.ofTypes (fields.map Field.type), fields, some ⟨p, s.2⟩⟩

/-! ## Pages -/

namespace Page

/-- The page with its rows in plain form. -/
def plain (p : Page) : Page := { p with slots := p.slots.map (Option.map Tuple.plain) }

@[simp] theorem id_plain (p : Page) : p.plain.id = p.id := rfl

@[simp] theorem slots_plain (p : Page) : p.plain.slots = p.slots.map (Option.map Tuple.plain) := rfl

@[simp] theorem plain_plain (p : Page) : p.plain.plain = p.plain := by
  simp [plain, Function.comp_def]

theorem plain_set (p : Page) (i : Nat) (s : Option Tuple) :
    plain { p with slots := p.slots.set i s } =
      { p.plain with slots := p.plain.slots.set i (s.map Tuple.plain) } := by
  simp [plain, List.map_set]

@[simp] theorem grid_plain (p : Page) : p.plain.grid = p.grid := by
  simp [grid, plain, Function.comp_def, Tuple.plain]

theorem freeSlot?_plain (p : Page) : p.plain.freeSlot? = p.freeSlot? := by
  rw [freeSlot?_eq, freeSlot?_eq, grid_plain]

theorem rows_plain (p : Page) : p.plain.rows = p.rows.map Tuple.plain := by
  rw [rows, rows, slots_plain, List.filterMap_map, List.map_filterMap]
  rfl

theorem freeCount_plain (p : Page) : p.plain.freeCount = p.freeCount := by
  simp [freeCount, plain, List.countP_map, Function.comp_def]

/-- What is seen of the rows of a sound page is its grid. -/
theorem Sound.plain_rows {p : Page} (hp : p.Sound) : p.rows.map Tuple.plain = p.grid.rows p.id := by
  have hslots : ∀ (slots : List (Option Tuple)) (n : Nat),
      (∀ (i : Nat) (t : Tuple), slots[i]? = some (some t) →
        t.plain = ⟨.ofTypes (t.fields.map Field.type), t.fields, some ⟨p.id, n + i⟩⟩) →
      (slots.filterMap fun s => s).map Tuple.plain =
        ((slots.map (Option.map Tuple.fields)).zipIdx n).filterMap fun s => s.1.map fun fields =>
          ⟨.ofTypes (fields.map Field.type), fields, some ⟨p.id, s.2⟩⟩ := by
    intro slots
    induction slots with
    | nil => intro n _; rfl
    | cons slot slots ih =>
      intro n h
      have hrest := ih (n + 1) fun i t hi => by
        rw [h (i + 1) t hi, Nat.add_right_comm, Nat.add_assoc]
      cases slot with
      | none => simpa using hrest
      | some t =>
        have hfirst := h 0 t rfl
        simpa [hfirst] using hrest
  refine hslots p.slots 0 fun i t hi => ?_
  obtain ⟨hrecord, -, htypes, -⟩ := hp.row i t hi
  rw [Tuple.plain, htypes, hrecord, Nat.zero_add]

/-- Two sound pages of one place and shape, with equal grids and the same dirtier, look the same. -/
theorem Sound.plain_eq {a b : Page} (ha : a.Sound) (hb : b.Sound) (hid : a.id = b.id)
    (hl : a.layout = b.layout) (hsize : a.size = b.size) (hd : a.dirtier = b.dirtier)
    (hg : a.grid = b.grid) : a.plain = b.plain := by
  have hslots : a.slots.map (Option.map Tuple.plain) = b.slots.map (Option.map Tuple.plain) := by
    refine List.ext_getElem? fun i => ?_
    have hi := congrArg (·[i]?) hg
    simp only [getElem?_grid] at hi
    rw [List.getElem?_map, List.getElem?_map]
    rcases hai : a.slots[i]? with _ | _ | t <;> rcases hbi : b.slots[i]? with _ | _ | u <;>
      simp only [hai, hbi, Option.map_none, Option.map_some, reduceCtorEq,
        Option.some.injEq] at hi ⊢
    obtain ⟨hta, htypes, -⟩ := ha.row i t hai
    obtain ⟨hub, hutypes, -⟩ := hb.row i u hbi
    rw [Tuple.plain, Tuple.plain, hi, htypes, hutypes, hta, hub, hid, hl]
  obtain ⟨id, layout, size, slots, dirtier⟩ := a
  obtain ⟨id', layout', size', slots', dirtier'⟩ := b
  simp only at hid hl hsize hd hslots
  rw [plain, plain, hid, hl, hsize, hd]
  simp only [hslots]

/-- An insert puts the row into the same slot, whatever names the columns of the others have. -/
theorem insert_plain (p : Page) (t : Tuple) :
    (p.plain.insert t).map (fun r => (r.1.plain, r.2)) =
      (p.insert t).map fun r => (r.1.plain, r.2) := by
  unfold insert
  rw [freeSlot?_plain]
  change Except.map _ (if t.layout.agrees p.layout then _ else _) = _
  cases t.layout.agrees p.layout with
  | false => rfl
  | true =>
    cases p.freeSlot? with
    | none => rfl
    | some slot =>
      refine congrArg (fun q => Except.ok (q, _)) ?_
      rw [plain_set, plain_set, plain_plain]
      rfl

theorem delete_plain (p : Page) (record : Option RecordId) :
    p.plain.delete record = (p.delete record).map plain := by
  unfold delete
  cases record with
  | none => rfl
  | some r =>
    dsimp only
    rw [id_plain]
    split
    · rfl
    · rw [slots_plain, List.getElem?_map]
      rcases p.slots[r.slot]? with _ | _ | t
      · rfl
      · rfl
      · exact congrArg Except.ok (plain_set p r.slot none).symm

/-! ## Bytes -/

theorem image_plain (p : Page) : p.plain.image = p.image := image_congr rfl rfl (grid_plain p)

end Page

theorem Store.writePage_plain (s : Store) (p : Page) : s.writePage p.plain = s.writePage p := by
  unfold Store.writePage HeapFile.writePage
  rw [Page.image_plain]
  rfl

/-! ## Outcomes and items -/

/-- Nothing could be evicted. -/
def Error.lacksRoom : Error → Bool
  | .noEvictablePage _ => true
  | _ => false

def lacksRoom {α : Type} : Except Error α → Bool
  | .error x => x.lacksRoom
  | .ok _ => false

/-- The outcome without frames. -/
def Outcome.plain : Outcome → Outcome
  | .locked => .locked
  | .fetched h page => .fetched ⟨h.page, 0⟩ page.plain
  | .changed page => .changed page.plain

/-- The page that was fetched, if one was. -/
def Outcome.fetched? : Outcome → Option Page
  | .fetched _ page => some page
  | .locked | .changed _ => none

theorem Outcome.fetched?_plain (outcome : Outcome) :
    outcome.plain.fetched? = outcome.fetched?.map Page.plain := by
  cases outcome <;> rfl

/-- Of two outcomes that look the same, both have fetched a page, or neither. -/
theorem Outcome.fetched_of_plain {outcome outcome' : Outcome} (h : outcome'.plain = outcome.plain) :
    (outcome.fetched? = none ∧ outcome'.fetched? = none) ∨
      ∃ page page', outcome.fetched? = some page ∧ outcome'.fetched? = some page' ∧
        page'.plain = page.plain := by
  have hfetched := congrArg Outcome.fetched? h
  rw [fetched?_plain, fetched?_plain] at hfetched
  cases hpage : outcome.fetched? with
  | none =>
    rw [hpage, Option.map_none, Option.map_eq_none_iff] at hfetched
    exact .inl ⟨rfl, hfetched⟩
  | some page =>
    rw [hpage] at hfetched
    obtain ⟨page', hpage', hplain⟩ := Option.map_eq_some_iff.1 hfetched
    exact .inr ⟨page, page', rfl, hpage', hplain⟩

namespace Advance

def plain : Advance → Advance
  | .done result => .done (result.map Outcome.plain)
  | .ask page mode purpose => .ask page mode purpose

def lacksRoom : Advance → Bool
  | .done result => PageStore.lacksRoom result
  | .ask .. => false

end Advance

def ScanItem.plain : ScanItem → ScanItem
  | .row tuple => .row tuple.plain
  | .failed x => .failed x
  | .finished => .finished

def ScanItem.lacksRoom : ScanItem → Bool
  | .failed x => x.lacksRoom
  | _ => false

namespace Cursor

def plain (c : Cursor) : Cursor := { c with rows := c.rows.map Tuple.plain }

/-- What is taken without loading a page, as it is seen. -/
def Taking.plain : Taking → Taking
  | .complete items c => .complete (items.map ScanItem.plain) c.plain
  | .load items left c p => .load (items.map ScanItem.plain) left c.plain p

def Taking.cursor : Taking → Cursor
  | .complete _ c | .load _ _ c _ => c

theorem Taking.cursor_plain (taking : Taking) : taking.plain.cursor = taking.cursor.plain := by
  cases taking <;> rfl

theorem Taking.eq_complete {taking : Taking} {items : List ScanItem} {c : Cursor}
    (h : taking.plain = .complete items c) :
    ∃ items' c', taking = .complete items' c' ∧ items'.map ScanItem.plain = items ∧
      c'.plain = c := by
  cases taking with
  | complete items' c' =>
    obtain ⟨hitems, hc⟩ := Taking.complete.inj h
    exact ⟨items', c', rfl, hitems, hc⟩
  | load => cases h

theorem Taking.eq_load {taking : Taking} {items : List ScanItem} {left : Option Nat} {c : Cursor}
    {p : PageId} (h : taking.plain = .load items left c p) :
    ∃ items' c', taking = .load items' left c' p ∧ items'.map ScanItem.plain = items ∧
      c'.plain = c := by
  cases taking with
  | complete => cases h
  | load items' left' c' p' =>
    obtain ⟨hitems, rfl, hc, rfl⟩ := Taking.load.inj h
    exact ⟨items', c', rfl, hitems, hc⟩

theorem plain_failure (left : Option Nat) (x : Error) :
    (failure left x).map ScanItem.plain = failure left x := by
  unfold failure
  split <;> rfl

/-- Cursors that look the same do so with the rows of pages that look the same. -/
theorem plain_fill {c c' : Cursor} (hc : c'.plain = c.plain) {page page' : Page}
    (hp : page'.plain = page.plain) : (c'.fill page'.rows).plain = (c.fill page.rows).plain := by
  have hrows : page'.rows.map Tuple.plain = page.rows.map Tuple.plain := by
    rw [← Page.rows_plain, ← Page.rows_plain, hp]
  exact congrArg₂ fill hc hrows

/-- How far a cursor gets does not hang on the names of columns. -/
theorem take_plain (c : Cursor) (v : Volume) (left : Option Nat) :
    c.plain.take v left = (c.take v left).plain := by
  have hrows : c.plain.takeRows left =
      ((c.takeRows left).1.map Tuple.plain, (c.takeRows left).2.1.plain,
        (c.takeRows left).2.2) := by
    cases left <;> simp [takeRows, plain, List.map_take, List.map_drop]
  have hitems : ∀ (rows : List Tuple) (more : List ScanItem), more.map ScanItem.plain = more →
      (rows.map Tuple.plain).map ScanItem.row ++ more =
        (rows.map ScanItem.row ++ more).map ScanItem.plain := by
    intro rows more hmore
    rw [List.map_append, hmore, List.map_map, List.map_map]
    rfl
  unfold take
  rw [hrows]
  generalize c.takeRows left = taken
  obtain ⟨rows, ⟨file, nextPage, rest, ended⟩, left1⟩ := taken
  have hrow := hitems rows [] rfl
  rw [List.append_nil, List.append_nil] at hrow
  dsimp only [plain]
  cases contented left1 with
  | true => exact congrArg (Taking.complete · _) hrow
  | false =>
    cases ended with
    | true => exact congrArg (Taking.complete · _) (hitems rows [.finished] rfl)
    | false =>
      cases file.pageCount v with
      | error x => exact congrArg (Taking.complete · _) (hitems rows _ (plain_failure left1 x))
      | ok count =>
        by_cases hlast : count ≤ nextPage
        · simp only [if_pos hlast, Bool.false_eq_true, if_false]
          exact congrArg (Taking.complete · _) (hitems rows [.finished] rfl)
        · simp only [if_neg hlast, Bool.false_eq_true, if_false]
          exact congrArg (Taking.load · _ _ _) hrow

end Cursor

namespace Engine

namespace Progress

def plain : Progress → Progress
  | .done result => .done (result.map Outcome.plain)
  | .next r => .next r
  | .asleep => .asleep

def lacksRoom : Progress → Bool
  | .done result => PageStore.lacksRoom result
  | _ => false

theorem eq_done {progress : Progress} {result : Except Error Outcome}
    (h : progress.plain = .done result) :
    ∃ result', progress = .done result' ∧ result'.map Outcome.plain = result := by
  cases progress with
  | done result' => exact ⟨result', rfl, Progress.done.inj h⟩
  | next r => cases h
  | asleep => cases h

theorem eq_next {progress : Progress} {r : LockRequest Purpose} (h : progress.plain = .next r) :
    progress = .next r := by
  cases progress with
  | done result => cases h
  | next r' => exact h
  | asleep => cases h

theorem eq_asleep {progress : Progress} (h : progress.plain = .asleep) : progress = .asleep := by
  cases progress with
  | done result => cases h
  | next r => cases h
  | asleep => rfl

end Progress

namespace Rest

def plain : Rest → Rest
  | .done result => .done (result.map Outcome.plain)
  | .asleep => .asleep

def lacksRoom : Rest → Bool
  | .done result => PageStore.lacksRoom result
  | .asleep => false

theorem eq_done {rest : Rest} {result : Except Error Outcome} (h : rest.plain = .done result) :
    ∃ result', rest = .done result' ∧ result'.map Outcome.plain = result := by
  cases rest with
  | done result' => exact ⟨result', rfl, Rest.done.inj h⟩
  | asleep => cases h

theorem eq_asleep {rest : Rest} (h : rest.plain = .asleep) : rest = .asleep := by
  cases rest with
  | done result => cases h
  | asleep => rfl

end Rest

namespace TakeRest

def plain : TakeRest → TakeRest
  | .done items c => .done (items.map ScanItem.plain) c.plain
  | .asleep items left c => .asleep (items.map ScanItem.plain) left c.plain

def items : TakeRest → List ScanItem
  | .done items _ | .asleep items _ _ => items

def cursor : TakeRest → Cursor
  | .done _ c | .asleep _ _ c => c

theorem cursor_plain (r : TakeRest) : r.plain.cursor = r.cursor.plain := by
  cases r <;> rfl

def lacksRoom (r : TakeRest) : Bool := r.items.any ScanItem.lacksRoom

theorem plain_after (items : List ScanItem) (r : TakeRest) :
    (r.after items).plain = r.plain.after (items.map ScanItem.plain) := by
  cases r <;> simp [after, plain]

theorem lacksRoom_after (items : List ScanItem) (r : TakeRest) :
    (r.after items).lacksRoom = (items.any ScanItem.lacksRoom || r.lacksRoom) := by
  cases r <;> simp [after, lacksRoom, TakeRest.items]

end TakeRest

end Engine
end PageStore
