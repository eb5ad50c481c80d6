import PageStore.Proofs.Locking.Components

/-!
# Rings in the wait graph

A change of the graph replaces the edges that leave one transaction or removes
edges. Removing edges closes no ring. New edges out of a transaction close one
exactly when one of their targets reaches it, and that can be read off the graph
as it was: a path to the transaction need not leave it.

Results:
* `getElem?_withTargets`, `getElem?_removeTxn_eq_some`: the entries after a change.
* `edge_setWaits`, `edge_removeWaiter`, `edge_removeTxn`: the edges after a change.
* `hasCycle_eq_false_iff`: the search finds no ring exactly in an acyclic graph.
* `Acyclic.hasCycle_setWaits`: when new waits close a ring.
* `Acyclic.wellFounded`: whoever waits is followed by somebody who does not.
-/
namespace PageStore.WaitGraph

open Relation

variable {g g' : WaitGraph} {t u a b : TxnId} {us : Std.TreeSet TxnId}

/-! ## Edges -/

theorem getElem?_withTargets : (g.withTargets t us).edges[a]? =
    if a = t then (if us.isEmpty then none else some us) else g.edges[a]? := by
  unfold withTargets
  split <;> simp [Std.TreeMap.getElem?_erase, Std.TreeMap.getElem?_insert, eq_comm (a := t)]

theorem edge_withTargets : (g.withTargets t us).Edge a b ↔ if a = t then b ∈ us else g.Edge a b := by
  rw [edge_iff, edge_iff, getElem?_withTargets]
  by_cases ha : a = t
  · by_cases hus : us.isEmpty
    · simp [ha, hus, Std.TreeSet.isEmpty_iff_forall_not_mem.1 hus]
    · simp [ha, hus]
  · simp [ha]

theorem removeWaiter_eq : g.removeWaiter t = g.withTargets t ∅ := rfl

theorem edge_removeWaiter : (g.removeWaiter t).Edge a b ↔ a ≠ t ∧ g.Edge a b := by
  rw [removeWaiter_eq, edge_withTargets]
  split <;> simp [*]

theorem edge_setWaits {hs : List TxnId} :
    (g.setWaits t hs).Edge a b ↔ if a = t then b ∈ hs ∧ b ≠ t else g.Edge a b := by
  rw [setWaits, edge_withTargets]
  simp [Std.TreeSet.mem_ofList]

/-- The entries of others lose `t`, and those that it leaves empty are dropped. -/
theorem getElem?_removeTxn_eq_some : (g.removeTxn t).edges[a]? = some us ↔
    a ≠ t ∧ (∃ vs, g.edges[a]? = some vs ∧ vs.erase t = us) ∧ ∃ u, u ∈ us := by
  rw [removeTxn, Std.TreeMap.getElem?_filterMap', Option.bind_eq_some_iff]
  constructor
  · rintro ⟨vs, hvs, hus⟩
    rw [withoutTxn] at hus
    split at hus
    · cases hus
    · next hn =>
      cases hus
      obtain ⟨ha, hne⟩ := not_or.1 hn
      rw [Bool.not_eq_true] at hne
      exact ⟨ha, ⟨vs, hvs, rfl⟩, Std.TreeSet.isEmpty_eq_false_iff_exists_mem.1 hne⟩
  · rintro ⟨ha, ⟨vs, hvs, rfl⟩, u, hu⟩
    refine ⟨vs, hvs, if_neg ?_⟩
    rintro (h | h)
    · exact ha h
    · exact Std.TreeSet.isEmpty_iff_forall_not_mem.1 h u hu

theorem edge_removeTxn : (g.removeTxn t).Edge a b ↔ a ≠ t ∧ b ≠ t ∧ g.Edge a b := by
  have herase : ∀ vs : Std.TreeSet TxnId, b ∈ vs.erase t ↔ b ≠ t ∧ b ∈ vs := fun vs => by
    simp [Std.TreeSet.mem_erase, eq_comm (a := t)]
  simp only [edge_iff, getElem?_removeTxn_eq_some]
  constructor
  · rintro ⟨_, ⟨ha, ⟨vs, hvs, rfl⟩, -⟩, hb⟩
    rw [herase] at hb
    exact ⟨ha, hb.1, vs, hvs, hb.2⟩
  · rintro ⟨ha, hb, vs, hvs, hmem⟩
    have hin : b ∈ vs.erase t := (herase vs).2 ⟨hb, hmem⟩
    exact ⟨_, ⟨ha, ⟨vs, hvs, rfl⟩, b, hin⟩, hin⟩

/-- Who has left is not a node any more. -/
theorem not_mem_nodes_removeTxn (g : WaitGraph) (t : TxnId) : t ∉ (g.removeTxn t).nodes := by
  simp only [nodes, Std.TreeSet.mem_toList, Std.TreeSet.mem_ofList, List.contains_iff_mem,
    List.mem_flatMap, not_exists, not_and]
  rintro ⟨a, us⟩ he hmem
  have hus := Std.TreeMap.mem_toList_iff_getElem?_eq_some.1 he
  obtain ⟨ha, ⟨vs, -, rfl⟩, -⟩ := getElem?_removeTxn_eq_some.1 hus
  rcases List.mem_cons.1 hmem with rfl | hmem
  · exact ha rfl
  · simp [Std.TreeSet.mem_toList, Std.TreeSet.mem_erase] at hmem

/-! ## Rings -/

/-- Nobody waits for itself through others. -/
def Acyclic (g : WaitGraph) : Prop := ∀ t, ¬TransGen g.Edge t t

theorem acyclic_empty : Acyclic empty := by
  intro t h
  obtain ⟨u, hu, -⟩ := TransGen.head'_iff.1 h
  simp [Edge] at hu

theorem Acyclic.mono (h : Acyclic g) (hs : ∀ a b, g'.Edge a b → g.Edge a b) : Acyclic g' :=
  fun t ht => h t (TransGen.mono hs t t ht)

theorem hasCycle_eq_false_iff : g.hasCycle = false ↔ Acyclic g := by
  rw [← Bool.not_eq_true, hasCycle_iff, Acyclic, not_exists]

/-- A path to `t` stops when it first comes there, so edges out of `t` do not matter. -/
theorem reaches_of_agree (h : ∀ a b, a ≠ t → g.Edge a b → g'.Edge a b) (hr : g.Reaches u t) :
    g'.Reaches u t := by
  induction hr using ReflTransGen.head_induction_on with
  | refl => exact .refl
  | @head x y he _ ih =>
    by_cases hx : x = t
    · subst hx; exact .refl
    · exact .head (h x y hx he) ih

/-- A path uses the edges out of `t` or has no need of them. -/
theorem transGen_of_agree (h : ∀ a b, a ≠ t → g'.Edge a b → g.Edge a b) (hr : TransGen g'.Edge a b) :
    TransGen g.Edge a b ∨ ∃ x, g'.Edge t x ∧ g'.Reaches a t ∧ g'.Reaches x b := by
  induction hr with
  | single he =>
    by_cases ha : a = t
    · subst ha; exact .inr ⟨_, he, .refl, .refl⟩
    · exact .inl (.single (h _ _ ha he))
  | @tail x y hr he ih =>
    rcases ih with ih | ⟨z, hz, haz, hzx⟩
    · by_cases hx : x = t
      · subst hx; exact .inr ⟨y, he, hr.to_reflTransGen, .refl⟩
      · exact .inl (ih.tail (h _ _ hx he))
    · exact .inr ⟨z, hz, haz, hzx.tail he⟩

/-- New waits close a ring exactly when somebody newly waited for reaches the waiter. -/
theorem Acyclic.hasCycle_setWaits (h : Acyclic g) {hs : List TxnId} :
    (g.setWaits t hs).hasCycle = true ↔ ∃ b ∈ hs, b ≠ t ∧ g.Reaches b t := by
  have hto : ∀ a b, a ≠ t → (g.setWaits t hs).Edge a b → g.Edge a b := fun a b ha he => by
    rwa [edge_setWaits, if_neg ha] at he
  have hfrom : ∀ a b, a ≠ t → g.Edge a b → (g.setWaits t hs).Edge a b := fun a b ha he => by
    rwa [edge_setWaits, if_neg ha]
  rw [hasCycle_iff]
  constructor
  · rintro ⟨x, hx⟩
    rcases transGen_of_agree hto hx with hx | ⟨b, hb, hxt, hbx⟩
    · exact absurd hx (h x)
    · rw [edge_setWaits, if_pos rfl] at hb
      exact ⟨b, hb.1, hb.2, reaches_of_agree hto (hbx.trans hxt)⟩
  · rintro ⟨b, hb, hne, hr⟩
    have he : (g.setWaits t hs).Edge t b := by
      rw [edge_setWaits, if_pos rfl]
      exact ⟨hb, hne⟩
    exact ⟨t, .head' he (reaches_of_agree hfrom hr)⟩

/-- In an acyclic graph an edge leads to an earlier component. -/
theorem Acyclic.wellFounded (h : Acyclic g) : WellFounded fun b a => g.Edge a b := by
  obtain ⟨hs, hnodes⟩ := components_sound g
  refine Subrelation.wf ?_
    (InvImage.wf (fun t => g.components.findIdx (·.contains t)) Nat.lt_wfRel.wf)
  intro b a he
  have hplaced : ∃ ts ∈ g.components, ts.contains a = true := by
    simpa using hnodes a (mem_nodes_of_edge he).1
  have hlt := List.findIdx_lt_length_of_exists hplaced
  have hmem := List.findIdx_getElem (w := hlt)
  rw [List.contains_iff_mem] at hmem
  obtain ⟨j, hj, us, hus, hb⟩ := hs.ordered _ _ (List.getElem?_eq_getElem hlt) a hmem b he
  show g.components.findIdx (·.contains b) < g.components.findIdx (·.contains a)
  obtain ⟨hjlt, rfl⟩ := List.getElem?_eq_some_iff.1 hus
  have hfirst : g.components.findIdx (·.contains b) ≤ j := by
    by_contra hn
    have := List.not_of_lt_findIdx (Nat.not_le.1 hn)
    rw [List.contains_eq_mem, decide_eq_false_iff_not] at this
    exact this hb
  refine Nat.lt_of_le_of_lt hfirst (Nat.lt_of_le_of_ne hj fun heq => ?_)
  subst heq
  -- two members of one component would wait for each other
  exact h a (.head' he (hs.strong _ (List.getElem_mem hlt) b hb a hmem))

end PageStore.WaitGraph
