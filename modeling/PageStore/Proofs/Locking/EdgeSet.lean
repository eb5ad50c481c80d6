import PageStore.Proofs.Locking.WaitGraph

/-!
# The wait graph as a set of edges

The graph is stored as a set of targets for each transaction that waits. Such a table
could say the same in several ways, as an entry without targets has no edge. It does
not: whoever has an entry waits for somebody, and nobody waits for itself. So the graph
is empty as a table exactly when it is empty as a set of edges. Of the four changes only
`removeTxn` takes targets out of the entries of others; it drops those that it empties.

Results:
* `edge_addEdge`, `does_change`: the edges after a change.
* `tidy_change`, `tidy_changeEach`: no change stores an edge from a transaction to itself
  or leaves an entry without targets.
* `edgeCount_eq`: the count is that of the edges.
* `keeps_edge_set`: all of it for whatever changes an empty graph has gone through.
-/
namespace PageStore.WaitGraph

variable {g : WaitGraph} {t u a b : TxnId} {us : Std.TreeSet TxnId}

theorem addEdge_eq (h : t ≠ u) : g.addEdge t u = g.withTargets t ((g.targets t).insert u) := by
  rw [addEdge, if_neg h, withTargets, if_neg (by simp)]

theorem edge_addEdge : (g.addEdge t u).Edge a b ↔ g.Edge a b ∨ (a = t ∧ b = u ∧ t ≠ u) := by
  by_cases h : t = u
  · simp [addEdge, h]
  · rw [addEdge_eq h, edge_withTargets]
    split
    · next ha => simp [ha, h, Edge, Std.TreeSet.mem_insert, or_comm, eq_comm (a := u)]
    · next ha => simp [ha]

/-! ## Tidy graphs -/

/-- Nobody waits for itself, and whoever has an entry waits for somebody. -/
structure Tidy (g : WaitGraph) : Prop where
  irrefl : ∀ t, ¬g.Edge t t
  inhabited : ∀ (t : TxnId) (us : Std.TreeSet TxnId), g.edges[t]? = some us → ∃ u, u ∈ us

theorem tidy_empty : Tidy empty :=
  ⟨fun t => by simp [Edge], fun t us h => by simp [empty] at h⟩

theorem Tidy.withTargets (h : g.Tidy) (ht : t ∉ us) : (g.withTargets t us).Tidy := by
  constructor
  · intro a
    rw [edge_withTargets]
    split
    · next ha => exact ha ▸ ht
    · exact h.irrefl a
  · intro a vs hvs
    rw [getElem?_withTargets] at hvs
    split at hvs
    · split at hvs
      · cases hvs
      · next hus =>
        cases hvs
        exact Std.TreeSet.isEmpty_eq_false_iff_exists_mem.1 (Bool.not_eq_true _ ▸ hus)
    · exact h.inhabited a vs hvs

theorem Tidy.addEdge (h : g.Tidy) (t u : TxnId) : (g.addEdge t u).Tidy := by
  by_cases hne : t = u
  · rwa [WaitGraph.addEdge, if_pos hne]
  · rw [addEdge_eq hne]
    refine h.withTargets fun ht => ?_
    rcases Std.TreeSet.mem_insert.1 ht with ht | ht
    · exact hne (Std.LawfulEqOrd.eq_of_compare ht).symm
    · exact h.irrefl t ht

theorem Tidy.setWaits (h : g.Tidy) (t : TxnId) (hs : List TxnId) : (g.setWaits t hs).Tidy :=
  h.withTargets (by simp [Std.TreeSet.mem_ofList])

theorem Tidy.removeTxn (h : g.Tidy) (t : TxnId) : (g.removeTxn t).Tidy :=
  ⟨fun a ha => h.irrefl a (edge_removeTxn.1 ha).2.2,
    fun _ _ hus => (getElem?_removeTxn_eq_some.1 hus).2.2⟩

/-! ## Changes -/

inductive Change
  | addEdge (waiter holder : TxnId)
  | setWaits (waiter : TxnId) (holders : List TxnId)
  | removeWaiter (waiter : TxnId)
  | removeTxn (t : TxnId)

def change (g : WaitGraph) : Change → WaitGraph
  | .addEdge waiter holder => g.addEdge waiter holder
  | .setWaits waiter holders => g.setWaits waiter holders
  | .removeWaiter waiter => g.removeWaiter waiter
  | .removeTxn t => g.removeTxn t

def changeEach (g : WaitGraph) : List Change → WaitGraph
  | [] => g
  | c :: changes => (g.change c).changeEach changes

/-- What a change is to do to the edges. -/
def Change.Does (g g' : WaitGraph) : Change → Prop
  | .addEdge t u => ∀ a b, g'.Edge a b ↔ g.Edge a b ∨ (a = t ∧ b = u ∧ t ≠ u)
  | .setWaits t hs =>
    (∀ b, g'.Edge t b ↔ b ∈ hs ∧ b ≠ t) ∧ ∀ a, a ≠ t → g'.edges[a]? = g.edges[a]?
  | .removeWaiter t => ∀ a b, g'.Edge a b ↔ g.Edge a b ∧ a ≠ t
  | .removeTxn t => ∀ a b, g'.Edge a b ↔ g.Edge a b ∧ a ≠ t ∧ b ≠ t

theorem does_change (g : WaitGraph) (c : Change) : c.Does g (g.change c) := by
  cases c with
  | addEdge t u => exact fun a b => edge_addEdge
  | setWaits t hs =>
    refine ⟨fun b => ?_, fun a ha => ?_⟩
    · rw [change, edge_setWaits, if_pos rfl]
    · rw [change, setWaits, getElem?_withTargets, if_neg ha]
  | removeWaiter t => exact fun a b => edge_removeWaiter.trans and_comm
  | removeTxn t =>
    intro a b
    rw [change, edge_removeTxn, ← and_assoc, and_comm]

theorem tidy_change (h : g.Tidy) (c : Change) : (g.change c).Tidy := by
  cases c with
  | addEdge t u => exact h.addEdge t u
  | setWaits t hs => exact h.setWaits t hs
  | removeWaiter t =>
    rw [change, removeWaiter_eq]
    exact h.withTargets Std.TreeSet.not_mem_emptyc
  | removeTxn t => exact h.removeTxn t

theorem tidy_changeEach : ∀ (changes : List Change) {g : WaitGraph}, g.Tidy → (g.changeEach changes).Tidy
  | [], _, h => h
  | c :: changes, _, h => tidy_changeEach changes (tidy_change h c)

/-! ## The edges, counted -/

/-- Every edge once, in the order of its source and then of its target. -/
def edgeList (g : WaitGraph) : List (TxnId × TxnId) :=
  g.edges.toList.flatMap fun e => e.2.toList.map (Prod.mk e.1)

theorem mem_edgeList : (a, b) ∈ g.edgeList ↔ g.Edge a b := by
  simp only [edgeList, List.mem_flatMap, List.mem_map, edge_iff, Prod.exists,
    Std.TreeMap.mem_toList_iff_getElem?_eq_some, Prod.mk.injEq, Std.TreeSet.mem_toList]
  constructor
  · rintro ⟨_, us, hus, _, hb, rfl, rfl⟩
    exact ⟨us, hus, hb⟩
  · rintro ⟨us, hus, hb⟩
    exact ⟨a, us, hus, b, hb, rfl, rfl⟩

theorem nodup_edgeList (g : WaitGraph) : g.edgeList.Nodup := by
  refine List.nodup_flatMap.2 ⟨fun e _ => ?_, Std.TreeMap.distinct_keys_toList.imp fun hne => ?_⟩
  · exact (LockTable.nodup_of_distinct e.2).map fun _ _ he => (Prod.mk.inj he).2
  · rintro edge h1 h2
    obtain ⟨_, -, rfl⟩ := List.mem_map.1 h1
    obtain ⟨_, -, he⟩ := List.mem_map.1 h2
    exact hne (Std.LawfulEqOrd.compare_eq_iff_eq.2 (congrArg Prod.fst he).symm)

theorem edgeCount_eq (g : WaitGraph) : g.edgeCount = g.edgeList.length := by
  rw [edgeCount, Std.TreeMap.foldl_eq_foldl_toList, edgeList, List.length_flatMap, List.sum_eq_foldl,
    List.foldl_map]
  simp

theorem edgeCount_eq_zero_iff : g.edgeCount = 0 ↔ ∀ a b, ¬g.Edge a b := by
  simp only [edgeCount_eq, List.length_eq_zero_iff, List.eq_nil_iff_forall_not_mem, Prod.forall,
    mem_edgeList]

theorem waitsFor_eq_nil_iff : (∀ t, g.waitsFor t = []) ↔ ∀ a b, ¬g.Edge a b := by
  simp only [List.eq_nil_iff_forall_not_mem, mem_waitsFor]

theorem Tidy.isEmpty_iff (h : g.Tidy) : g.isEmpty = true ↔ ∀ a b, ¬g.Edge a b := by
  rw [isEmpty, Std.TreeMap.isEmpty_iff_forall_not_mem]
  constructor
  · intro hempty a b hedge
    obtain ⟨us, hus, -⟩ := edge_iff.1 hedge
    exact hempty a (Std.TreeMap.mem_iff_isSome_getElem?.2 (by rw [hus]; rfl))
  · intro hnone a ha
    obtain ⟨us, hus⟩ := Option.isSome_iff_exists.1 (Std.TreeMap.mem_iff_isSome_getElem?.1 ha)
    obtain ⟨b, hb⟩ := h.inhabited a us hus
    exact hnone a b (edge_iff.2 ⟨us, hus, hb⟩)

/-- Whatever changes an empty graph has gone through, no edge leads from a transaction to
itself and no entry is without targets, so it shows as empty exactly when it counts no
edge, and exactly when nobody waits; it counts each edge once; and the next change does to
the edges what it is to do, and no more. -/
theorem keeps_edge_set (changes : List Change) :
    (empty.changeEach changes).Tidy ∧
    ((empty.changeEach changes).isEmpty = true ↔ (empty.changeEach changes).edgeCount = 0) ∧
    ((empty.changeEach changes).isEmpty = true ↔ ∀ t, (empty.changeEach changes).waitsFor t = []) ∧
    (∃ edges : List (TxnId × TxnId), edges.Nodup ∧
      (∀ a b, (a, b) ∈ edges ↔ (empty.changeEach changes).Edge a b) ∧
      (empty.changeEach changes).edgeCount = edges.length) ∧
    ∀ c : Change, c.Does (empty.changeEach changes) ((empty.changeEach changes).change c) := by
  have htidy : (empty.changeEach changes).Tidy := tidy_changeEach changes tidy_empty
  refine ⟨htidy, ?_, ?_, ⟨_, nodup_edgeList _, fun a b => mem_edgeList, edgeCount_eq _⟩, does_change _⟩
  · rw [htidy.isEmpty_iff, edgeCount_eq_zero_iff]
  · rw [htidy.isEmpty_iff, waitsFor_eq_nil_iff]

/-- Two wait for each other and a third for one of them; with that one gone, nobody waits. -/
example : (empty.changeEach [.addEdge 0 1, .addEdge 1 0, .addEdge 2 1, .removeTxn 1]).edgeCount = 0 := by
  decide +kernel

end PageStore.WaitGraph
