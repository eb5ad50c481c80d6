import PageStore.Locking.WaitGraph

/-!
# Strongly connected components of the wait graph

Depth-first search with low points. Visited transactions lie on a stack until
their component is complete; the height of a transaction is the number of
entries below it. Exploring a transaction yields the lowest height that it
reaches through itself and everything explored from it; if that is its own
height, everything from it upwards is a component.

Roots and successors are taken in ascending order, so the list of components
and their order are determined by the graph.

Results:
* `hasCycle_iff_any`: a cycle is a component of several members, or of one
  that waits for itself.
-/
namespace PageStore.WaitGraph

/-- The state of the search: visited transactions whose component is open,
latest first, and the components found, earliest first. -/
structure Search where
  stack : List TxnId
  found : List (List TxnId)
  deriving DecidableEq, Repr

/-- The number of entries below `t`. -/
def heightIn : List TxnId → TxnId → Option Nat
  | [], _ => none
  | u :: rest, t => if u = t then some rest.length else heightIn rest t

/-- Whether the component of `t` is complete. -/
def Search.isPlaced (s : Search) (t : TxnId) : Bool := s.found.any (·.contains t)

/-- A component as it is reported. -/
def ascending (ts : List TxnId) : List TxnId := (Std.TreeSet.ofList ts).toList

/-- Makes a component of everything above the lowest `height` entries. -/
def Search.close (s : Search) (height : Nat) : Search :=
  { stack := s.stack.drop (s.stack.length - height)
    found := s.found ++ [ascending (s.stack.take (s.stack.length - height))] }

/-- Looks at transactions one after another, visiting those not seen before,
and lowers `low` to the lowest height reached. -/
def sweep (visit : TxnId → Search → Search × Nat) : List TxnId → Search → Nat → Search × Nat
  | [], s, low => (s, low)
  | t :: ts, s, low =>
    match heightIn s.stack t with
    | some height => sweep visit ts s (min low height)
    | none =>
      if s.isPlaced t then sweep visit ts s low
      else
        let (s, height) := visit t s
        sweep visit ts s (min low height)

/-- Explores from `t`. The first argument bounds the depth of the search.
mirrors `visit`, with heights for its numbers -/
def explore (g : WaitGraph) : Nat → TxnId → Search → Search × Nat
  | 0, _, s => (s, s.stack.length)
  | depth + 1, t, s =>
    let height := s.stack.length
    let (s, low) := sweep (explore g depth) (g.waitsFor t) { s with stack := t :: s.stack } height
    if low = height then (s.close height, height) else (s, low)

/-- The strongly connected components, each ascending, in the order in which
the search completes them. No path is longer than the list of nodes.
mirrors `strongly_connected_components` -/
def components (g : WaitGraph) : List (List TxnId) :=
  (sweep (explore g g.nodes.length) g.nodes ⟨[], []⟩ 0).1.found

/-- Whether the members of a component wait in a ring. -/
def isRing (g : WaitGraph) : List TxnId → Bool
  | [] => false
  | [t] => (g.targets t).contains t
  | _ :: _ :: _ => true

/-- Whether some transactions wait in a ring.
mirrors `has_cycle` -/
def hasCycle (g : WaitGraph) : Bool := g.components.any g.isRing

theorem hasCycle_iff_any {g : WaitGraph} :
    g.hasCycle = true ↔ ∃ c ∈ g.components, g.isRing c = true := by
  simp [hasCycle]

end PageStore.WaitGraph
