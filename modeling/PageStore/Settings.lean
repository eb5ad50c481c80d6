import PageStore.Id
import Std.Data.TreeMap

/-!
# Settings of files and pools, and scoped page sizes

A page has 4096 bytes unless an override is in force. An override is made
under a name and remembers the page size setting it found; ending it puts that
setting back, whatever else has changed in between.

Results:
* `PageSizes.pageSize_override`: a new override is in force at once, unless it
  takes the name of a living one.
* `PageSizes.pageSize_drop_override`: ending an override right after making it
  brings back the page size that was in force before.
-/
namespace PageStore

/-- Bytes of a page when nothing else is said: one block of most devices. -/
def standardPageSize : Nat := 4096

/-- Pages that a pool caches when nothing else is said. -/
def standardPoolPages : Nat := 50

/-- Bytes that every text column sets aside for its text. -/
def textWidth : Nat := 128

/-- When a lock request that cannot be granted gives up. -/
inductive DeadlockPolicy
  /-- at once, if waiting would close a ring of waiting transactions -/
  | cycleDetection
  /-- after waiting for `ms` milliseconds -/
  | timeout (ms : Nat)
  deriving DecidableEq, Repr, Inhabited

/-- What goes to the file when an insert needs a new page. -/
inductive AppendPolicy
  /-- an empty page; the row is stored when its transaction commits -/
  | extendEmpty
  /-- the page with the row, which is then stored even if its transaction aborts -/
  | writeThrough
  deriving DecidableEq, Repr, Inhabited

def AppendPolicy.text : AppendPolicy → String
  | extendEmpty => "ExtendEmpty"
  | writeThrough => "WriteThrough"

/-- Settings given to a heap file or a pool when it is made. -/
structure Settings where
  pageSize : Nat
  poolPages : Nat
  deadlock : DeadlockPolicy
  append : AppendPolicy
  deriving DecidableEq, Repr, Inhabited

/-- The usual settings where pages have `pageSize` bytes. -/
def Settings.standard (pageSize : Nat) : Settings :=
  ⟨pageSize, standardPoolPages, .cycleDetection, .extendEmpty⟩

def Settings.withPoolPages (pageSize pages : Nat) : Settings :=
  { Settings.standard pageSize with poolPages := pages }

/-! ## Overrides of the page size -/

/-- A living override: its page size and the setting it found. -/
structure PageSizes.Override where
  size : Nat
  found : Option Nat
  deriving DecidableEq, Repr

/-- The page size setting of one thread, and its living overrides by name. -/
structure PageSizes where
  setting : Option Nat
  alive : Std.TreeMap String PageSizes.Override

namespace PageSizes

def initial : PageSizes := ⟨none, ∅⟩

/-- The page size in force. -/
def pageSize (s : PageSizes) : Nat := s.setting.getD standardPageSize

/-- Ends the override called `name`; the answer says whether there was one.
mirrors `drop` -/
def drop (s : PageSizes) (name : String) : PageSizes × Bool :=
  match s.alive[name]? with
  | some o => ({ setting := o.found, alive := s.alive.erase name }, true)
  | none => (s, false)

/-- Makes an override. If its name belongs to a living one, that one ends after
the new one was made.
mirrors `override_page_size` -/
def override (s : PageSizes) (name : String) (size : Nat) : PageSizes :=
  { setting := match s.alive[name]? with
      | some old => old.found
      | none => some size
    alive := s.alive.insert name ⟨size, s.setting⟩ }

theorem pageSize_override {s : PageSizes} {name : String} (size : Nat) (h : s.alive[name]? = none) :
    (s.override name size).pageSize = size := by
  simp [override, pageSize, h]

theorem pageSize_drop_override (s : PageSizes) (name : String) (size : Nat) :
    ((s.override name size).drop name).1.pageSize = s.pageSize := by
  simp [override, drop, pageSize]

end PageSizes
end PageStore
