import PageStore.Pool.Run

/-!
# Reading a table row by row

A cursor goes through the rows of a table, page by page and slot by slot. It
takes the rows of a page all at once, when it gets there, and asks for the
page count anew before every page. A page that cannot be had is reported once,
and the cursor is at its end then, until it is set back to the start.

Results:
* `pagesLeft_load_lt`: every page that a cursor loads brings its end closer.
-/
namespace PageStore

/-- A place in a table: the next page to load, and the rows at hand. -/
structure Cursor where
  file : HeapFile
  nextPage : Nat
  rows : List Tuple
  ended : Bool
  deriving DecidableEq, Repr

/-- What a cursor yields. -/
inductive ScanItem
  | row (tuple : Tuple)
  | failed (error : Error)
  | finished
  deriving DecidableEq, Repr

namespace Cursor

def start (file : HeapFile) : Cursor := ⟨file, 0, [], false⟩

/-- The cursor set back to the start.
mirrors `rewind` -/
def rewind (c : Cursor) : Cursor := start c.file

/-- The cursor with the rows of its next page at hand. -/
def fill (c : Cursor) (rows : List Tuple) : Cursor := { c with rows, nextPage := c.nextPage + 1 }

def stop (c : Cursor) : Cursor := { c with ended := true }

/-- Whether a taker who wants `left` more items, or all, is content. -/
def contented (left : Option Nat) : Bool := left == some 0

/-- What a failure yields to a taker who wants `left` more items, or all. -/
def failure (left : Option Nat) (x : Error) : List ScanItem :=
  if left = some 1 then [.failed x] else [.failed x, .finished]

/-- The rows at hand that are taken, and what is left of them and of the demand. -/
def takeRows (c : Cursor) : Option Nat → List Tuple × Cursor × Option Nat
  | none => (c.rows, { c with rows := [] }, none)
  | some n => (c.rows.take n, { c with rows := c.rows.drop n }, some (n - c.rows.length))

/-- How far items can be taken without loading a page. -/
inductive Taking
  | complete (items : List ScanItem) (cursor : Cursor)
  | load (items : List ScanItem) (left : Option Nat) (cursor : Cursor) (page : PageId)

/-- Takes items without loading a page.
mirrors `next` and `load_next_page`, up to the page that is fetched -/
def take (c : Cursor) (v : Volume) (left : Option Nat) : Taking :=
  let (rows, c, left) := c.takeRows left
  let items := rows.map .row
  if contented left then .complete items c
  else if c.ended then .complete (items ++ [.finished]) c
  else
    match c.file.pageCount v with
    | .error x => .complete (items ++ failure left x) c.stop
    | .ok count =>
      if count ≤ c.nextPage then .complete (items ++ [.finished]) c.stop
      else .load items left c ⟨c.file.id, c.nextPage⟩

/-- Pages of the file that the cursor has not loaded. -/
def pagesLeft (c : Cursor) (v : Volume) : Nat := c.file.fileSize v / c.file.pageSize - c.nextPage

theorem pagesLeft_load_lt {c c' : Cursor} {v : Volume} {left left' : Option Nat}
    {items : List ScanItem} {p : PageId} (h : c.take v left = .load items left' c' p)
    (rows : List Tuple) : (c'.fill rows).pagesLeft v < c.pagesLeft v := by
  have hk : ∀ l, (c.takeRows l).2.1.file = c.file ∧ (c.takeRows l).2.1.nextPage = c.nextPage := by
    intro l; cases l <;> exact ⟨rfl, rfl⟩
  unfold take at h
  obtain ⟨hf, hp⟩ := hk left
  generalize c.takeRows left = taken at *
  obtain ⟨rows', c1, left1⟩ := taken
  dsimp only at *
  split at h
  · cases h
  · split at h
    · cases h
    · split at h
      · cases h
      · next count hc =>
        split at h
        · cases h
        · next hlt =>
          cases h
          obtain ⟨hcount, _⟩ := HeapFile.pageCount_eq_ok_iff.1 hc
          simp only [pagesLeft, fill, hf, hp] at *
          omega

end Cursor

namespace Engine

/-- Where taking items comes to rest. -/
inductive TakeRest
  | done (items : List ScanItem) (cursor : Cursor)
  | asleep (items : List ScanItem) (left : Option Nat) (cursor : Cursor)

/-- The items taken earlier come first. -/
def TakeRest.after (items : List ScanItem) : TakeRest → TakeRest
  | .done more c => .done (items ++ more) c
  | .asleep more left c => .asleep (items ++ more) left c

/-- Takes items, loading pages as they are needed. -/
def take (e : Engine) (ticket : Ticket) (t : TxnId) (c : Cursor) (left : Option Nat) :
    Engine × TakeRest :=
  match _taken : c.take e.store.volume left with
  | .complete items c => (e, .done items c)
  | .load items left c' p =>
    match _loaded : e.perform ticket t (.fetch p .shared) with
    | (e', .asleep) => (e', .asleep items left c')
    | (e', .done (.error x)) => (e', .done (items ++ Cursor.failure left x) c'.stop)
    | (e', .done (.ok (.fetched _ page))) =>
      let (e', rest) := e'.take ticket t (c'.fill page.rows) left
      (e', rest.after items)
    | (e', .done (.ok _)) => (e', .done items c')
termination_by c.pagesLeft e.store.volume
decreasing_by
  have hs := store_perform_fetch e ticket t p .shared
  rw [_loaded] at hs
  rw [hs]
  exact Cursor.pagesLeft_load_lt _taken page.rows

end Engine
end PageStore
