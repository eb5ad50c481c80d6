import PageStore.Id
import Std.Data.TreeMap
import Std.Data.TreeSet

/-!
# Who waits for whom

The graph has an edge from every waiting transaction to each holder it waits
for. A transaction never waits for itself, and a transaction that waits for
nobody has no entry.

Results:
* `waitsFor_removeWaiter`: withdrawing a waiter removes the edges that leave it
  and no other.
* `waitsFor_setWaits_of_ne`: a new set of waits concerns its own waiter only.
-/
namespace PageStore

/-- The transactions that each waiting transaction waits for. -/
structure WaitGraph where
  edges : Std.TreeMap TxnId (Std.TreeSet TxnId)

namespace WaitGraph

def empty : WaitGraph := ⟨∅⟩

instance : Inhabited WaitGraph := ⟨empty⟩

/-- The transactions that `t` waits for. -/
def targets (g : WaitGraph) (t : TxnId) : Std.TreeSet TxnId := g.edges.getD t ∅

/-- The transactions that `t` waits for, ascending.
mirrors `waits_for` -/
def waitsFor (g : WaitGraph) (t : TxnId) : List TxnId := (g.targets t).toList

/-- Gives `t` exactly these targets; without any, it has no entry. -/
def withTargets (g : WaitGraph) (t : TxnId) (holders : Std.TreeSet TxnId) : WaitGraph :=
  if holders.isEmpty then ⟨g.edges.erase t⟩ else ⟨g.edges.insert t holders⟩

/-- Adds an edge, unless it would lead from a transaction to itself.
mirrors `add_edge` -/
def addEdge (g : WaitGraph) (waiter holder : TxnId) : WaitGraph :=
  if waiter = holder then g else ⟨g.edges.insert waiter ((g.targets waiter).insert holder)⟩

/-- Lets a transaction wait for exactly the holders other than itself.
mirrors `set_waits` -/
def setWaits (g : WaitGraph) (waiter : TxnId) (holders : List TxnId) : WaitGraph :=
  g.withTargets waiter (Std.TreeSet.ofList (holders.filter (· != waiter)))

/-- Removes the edges that leave a transaction.
mirrors `remove_waiter` -/
def removeWaiter (g : WaitGraph) (waiter : TxnId) : WaitGraph := ⟨g.edges.erase waiter⟩

/-- What is left of the targets of `waiter` when `t` is gone. -/
def withoutTxn (t waiter : TxnId) (holders : Std.TreeSet TxnId) : Option (Std.TreeSet TxnId) :=
  if waiter = t ∨ (holders.erase t).isEmpty then none else some (holders.erase t)

/-- Removes the edges that leave or enter a transaction.
mirrors `remove_transaction` -/
def removeTxn (g : WaitGraph) (t : TxnId) : WaitGraph := ⟨g.edges.filterMap (withoutTxn t)⟩

/-- mirrors `edge_count` -/
def edgeCount (g : WaitGraph) : Nat := g.edges.foldl (fun n _ targets => n + targets.size) 0

def isEmpty (g : WaitGraph) : Bool := g.edges.isEmpty

/-- The transactions that wait or are waited for, ascending. -/
def nodes (g : WaitGraph) : List TxnId :=
  (Std.TreeSet.ofList (g.edges.toList.flatMap fun e => e.1 :: e.2.toList)).toList

/-- The edge relation. -/
def Edge (g : WaitGraph) (a b : TxnId) : Prop := b ∈ g.targets a

@[simp] theorem targets_empty (t : TxnId) : empty.targets t = ∅ := by
  simp [empty, targets]

theorem targets_removeWaiter (g : WaitGraph) (w t : TxnId) :
    (g.removeWaiter w).targets t = if t = w then ∅ else g.targets t := by
  simp only [removeWaiter, targets, Std.TreeMap.getD_erase, Std.LawfulEqOrd.compare_eq_iff_eq]
  by_cases h : t = w
  · simp [h]
  · simp [h, Ne.symm h]

theorem waitsFor_removeWaiter (g : WaitGraph) (w t : TxnId) :
    (g.removeWaiter w).waitsFor t = if t = w then [] else g.waitsFor t := by
  unfold waitsFor
  rw [targets_removeWaiter]
  split <;> rfl

theorem waitsFor_setWaits_of_ne (g : WaitGraph) {w t : TxnId} (holders : List TxnId) (h : t ≠ w) :
    (g.setWaits w holders).waitsFor t = g.waitsFor t := by
  unfold waitsFor targets setWaits withTargets
  split <;> simp [Std.TreeMap.getD_erase, Std.TreeMap.getD_insert, Ne.symm h]

end WaitGraph
end PageStore
