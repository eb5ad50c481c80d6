import PageStore.Scan.Cursor

/-!
# Scans that follow a plan

A plan drives one cursor: take so many items or all of them, go back to the
start, put a row into the table, delete a record. A scan that has to wait keeps
what it has got so far, and reports when its plan is done.

Results:
* `runPlan_nil`: a plan without steps is done at once.
-/
namespace PageStore

inductive PlanStep
  /-- so many items, or all -/
  | take (left : Option Nat)
  | rewind
  | insert (row : List Field)
  | delete (record : RecordId)
  deriving DecidableEq, Repr

/-- What a step of a plan brings. -/
inductive PlanEntry
  | taken (items : List ScanItem)
  | rewound
  /-- a change of the table, or why it failed -/
  | changed (failure : Option Error)
  /-- the row does not follow the table's layout -/
  | invalidRow
  deriving DecidableEq, Repr

/-- A scan under way: the steps to do, the first of which may have begun; the
items that it has taken; and what the earlier steps brought. -/
structure Scan where
  cursor : Cursor
  steps : List PlanStep
  items : List ScanItem
  entries : List PlanEntry
  deriving DecidableEq, Repr

def Scan.start (file : HeapFile) (steps : List PlanStep) : Scan := ⟨.start file, steps, [], []⟩

/-- The error of an operation that failed. -/
def failureOf {α : Type} : Except Error α → Option Error
  | .ok _ => none
  | .error x => some x

namespace Engine

/-- Where a scan comes to rest. -/
inductive ScanRest
  | done (entries : List PlanEntry)
  | asleep (scan : Scan)

/-- Does the steps of a plan one after another, as far as it goes. -/
def runPlan (e : Engine) (ticket : Ticket) (t : TxnId) (c : Cursor) (items : List ScanItem)
    (entries : List PlanEntry) : List PlanStep → Engine × ScanRest
  | [] => (e, .done entries)
  | .take left :: rest =>
    match e.take ticket t c left with
    | (e, .done more c) => e.runPlan ticket t c [] (entries ++ [.taken (items ++ more)]) rest
    | (e, .asleep more left c) => (e, .asleep ⟨c, .take left :: rest, items ++ more, entries⟩)
  | .rewind :: rest => e.runPlan ticket t c.rewind [] (entries ++ [.rewound]) rest
  | .insert row :: rest =>
    match Tuple.make? c.file.layout row with
    | none => e.runPlan ticket t c [] (entries ++ [.invalidRow]) rest
    | some tuple =>
      match e.perform ticket t (.insert c.file.id tuple) with
      | (e, .done result) =>
        e.runPlan ticket t c [] (entries ++ [.changed (failureOf result)]) rest
      | (e, .asleep) => (e, .asleep ⟨c, .insert row :: rest, [], entries⟩)
  | .delete record :: rest =>
    match e.perform ticket t (.delete (some record)) with
    | (e, .done result) =>
      e.runPlan ticket t c [] (entries ++ [.changed (failureOf result)]) rest
    | (e, .asleep) => (e, .asleep ⟨c, .delete record :: rest, [], entries⟩)

/-- Begins a scan. -/
def beginScan (e : Engine) (ticket : Ticket) (t : TxnId) (s : Scan) : Engine × ScanRest :=
  e.runPlan ticket t s.cursor s.items s.entries s.steps

/-- Goes on with a scan when the operation that it waited for is over. -/
def resumeScan (e : Engine) (ticket : Ticket) (t : TxnId) (s : Scan) (result : Except Error Outcome) :
    Engine × ScanRest :=
  match s.steps with
  | .take left :: rest =>
    match result with
    | .ok (.fetched _ page) =>
      e.runPlan ticket t (s.cursor.fill page.rows) s.items s.entries (.take left :: rest)
    | .ok _ => e.runPlan ticket t s.cursor s.items s.entries (.take left :: rest)
    | .error x =>
      e.runPlan ticket t s.cursor.stop []
        (s.entries ++ [.taken (s.items ++ Cursor.failure left x)]) rest
  | .insert _ :: rest | .delete _ :: rest =>
    e.runPlan ticket t s.cursor [] (s.entries ++ [.changed (failureOf result)]) rest
  | .rewind :: _ | [] => e.beginScan ticket t s

@[simp] theorem runPlan_nil (e : Engine) (ticket : Ticket) (t : TxnId) (c : Cursor)
    (items : List ScanItem) (entries : List PlanEntry) :
    e.runPlan ticket t c items entries [] = (e, .done entries) := rfl

end Engine
end PageStore
