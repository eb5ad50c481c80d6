/-!
# Names of tables, pages, records and transactions

A table is known by a number given to it, or by the file that stores it;
a page by its table and its position in the table's file; a record by its
page and slot. All three are ordered: tables with a number first, then
tables named by their file, and pages by table and position.

Results:
* `TableId.instTransOrd`, `PageId.instTransOrd`: both orders are total
  preorders, so the ids can key ordered maps.
* `TableId.instLawfulEqOrd`, `PageId.instLawfulEqOrd`: only equal ids compare
  as equal.
-/
namespace PageStore

/-- Transactions are numbered in the order in which they began. -/
abbrev TxnId := Nat

/-- A table: numbered by whoever created it, or named by its file, so that
two tables opened on one file are the same table. -/
inductive TableId
  | numbered (n : Nat)
  | ofFile (name : String)
  deriving DecidableEq, Repr, Inhabited

/-- A page: its table and its place, counted from zero, in the table's file. -/
structure PageId where
  table : TableId
  index : Nat
  deriving DecidableEq, Repr, Inhabited

/-- A stored row: its page and the slot it lies in. -/
structure RecordId where
  page : PageId
  slot : Nat
  deriving DecidableEq, Repr, Inhabited

/-- What a request may do with a page once it is locked. -/
inductive LockMode
  | shared
  | exclusive
  deriving DecidableEq, Repr, Inhabited

/-! ## Texts -/

/-- The id as it stands inside other texts: `7`, or `@` and the file's name. -/
def TableId.label : TableId → String
  | numbered n => toString n
  | ofFile name => "@" ++ name

def TableId.text (t : TableId) : String := "Table(" ++ t.label ++ ")"

def PageId.text (p : PageId) : String := "Page(" ++ p.table.label ++ ":" ++ toString p.index ++ ")"

/-- The text of a transaction number. -/
def txnText (t : TxnId) : String := "Txn(" ++ toString t ++ ")"

def LockMode.text : LockMode → String
  | shared => "Shared"
  | exclusive => "Exclusive"

/-- Where the page starts in a file of pages of `pageSize` bytes. -/
def PageId.offset (p : PageId) (pageSize : Nat) : Nat := p.index * pageSize

/-! ## Order -/

/-- Numbered tables come before tables named by a file. -/
def TableId.rank : TableId → Nat
  | numbered _ => 0
  | ofFile _ => 1

def TableId.number : TableId → Nat
  | numbered n => n
  | ofFile _ => 0

def TableId.fileName : TableId → String
  | numbered _ => ""
  | ofFile name => name

instance : Ord TableId where
  compare := compareLex (compareOn TableId.rank)
    (compareLex (compareOn TableId.number) (compareOn TableId.fileName))

instance TableId.instTransOrd : Std.TransOrd TableId :=
  inferInstanceAs (Std.TransCmp (compareLex (compareOn TableId.rank)
    (compareLex (compareOn TableId.number) (compareOn TableId.fileName))))

theorem TableId.eq_of_parts {a b : TableId} (hr : a.rank = b.rank) (hn : a.number = b.number)
    (hf : a.fileName = b.fileName) : a = b := by
  cases a <;> cases b <;> simp_all [rank, number, fileName]

instance TableId.instLawfulEqOrd : Std.LawfulEqOrd TableId where
  eq_of_compare {a b} h := by
    have h : compareLex (compareOn TableId.rank) (compareLex (compareOn TableId.number)
      (compareOn TableId.fileName)) a b = .eq := h
    simp only [compareLex, compareOn, Ordering.then_eq_eq, Std.LawfulEqOrd.compare_eq_iff_eq] at h
    exact TableId.eq_of_parts h.1 h.2.1 h.2.2

instance : Ord PageId where
  compare := compareLex (compareOn PageId.table) (compareOn PageId.index)

instance PageId.instTransOrd : Std.TransOrd PageId :=
  inferInstanceAs (Std.TransCmp (compareLex (compareOn PageId.table) (compareOn PageId.index)))

instance PageId.instLawfulEqOrd : Std.LawfulEqOrd PageId where
  eq_of_compare {a b} h := by
    have h : compareLex (compareOn PageId.table) (compareOn PageId.index) a b = .eq := h
    simp only [compareLex, compareOn, Ordering.then_eq_eq, Std.LawfulEqOrd.compare_eq_iff_eq] at h
    cases a; cases b; simp_all

end PageStore
