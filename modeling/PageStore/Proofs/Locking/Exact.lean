import PageStore.Proofs.Locking.Numbering

/-!
# What the search by numbers finds

The search by numbers and the search by heights find the same components, and
those are known to be sound: disjoint, strongly connected, with edges that lead to
no later one. Two transactions that reach each other are then in one component,
since a path that came back to a component that it had left would have to go up in
the list. Whether there is a ring is read off the components, and each has a first
member to be looked at.

Results:
* `components_exact`: the search ends, and finds the strongly connected components
  in the reverse of a topological order.
* `hasCycle_exact`: there is a cycle exactly if some transaction reaches itself;
  new waits close one exactly if somebody waited for reaches the waiter, and
  withdrawing the waiter opens it again.
-/
namespace PageStore.WaitGraph

open Relation

variable {g : WaitGraph} {t u : TxnId}

/-! ## Components -/

/-- A transaction at an end of some edge. -/
def Touched (g : WaitGraph) (t : TxnId) : Prop := ∃ u, g.Edge t u ∨ g.Edge u t

theorem Touched.mem_nodes (h : g.Touched t) : t ∈ g.nodes := by
  obtain ⟨u, he | he⟩ := h
  · exact (mem_nodes_of_edge he).1
  · exact (mem_nodes_of_edge he).2

/-- The parts are the strongly connected components, and edges between them lead
backwards in the list. -/
structure Decomposes (g : WaitGraph) (parts : List (List TxnId)) : Prop where
  once : ∀ t, g.Touched t → parts.flatten.count t = 1
  nodes : ∀ t, t ∈ parts.flatten ↔ t ∈ g.nodes
  together : ∀ t u, g.Touched t →
    ((∃ c ∈ parts, t ∈ c ∧ u ∈ c) ↔ g.Reaches t u ∧ g.Reaches u t)
  inhabited : ∀ c ∈ parts, c ≠ []
  ascending : ∀ c ∈ parts, c.Pairwise (· < ·)
  earlier : ∀ (i j : Nat) (c d : List TxnId), parts[i]? = some c → parts[j]? = some d → i ≠ j →
    ∀ a ∈ c, ∀ b ∈ d, g.Edge a b → j < i

theorem decomposes_components (g : WaitGraph) : g.Decomposes g.components := by
  obtain ⟨hs, hnodes⟩ := components_sound g
  obtain ⟨-, r, hf⟩ := components_follow (Nat.le_refl g.nodes.length)
  refine ⟨fun t ht => ?_, fun t => ⟨fun h => ?_, fun h => ?_⟩, fun t u ht => ⟨?_, fun h => ?_⟩,
    fun c hc => (hf.part c hc).1, fun c hc => (hf.part c hc).2, ?_⟩
  · exact List.count_eq_one_of_mem hs.nodup_found (List.mem_flatten.2 (hnodes t ht.mem_nodes))
  · exact hf.node t ((hf.seen t).2 (.inr (Search.mem_flatten_found.1 h)))
  · exact List.mem_flatten.2 (hnodes t h)
  · rintro ⟨c, hc, ht, hu⟩
    exact ⟨hs.strong c hc t ht u hu, hs.strong c hc u hu t ht⟩
  · obtain ⟨c, hc, htc⟩ := hnodes t ht.mem_nodes
    exact ⟨c, hc, htc, mem_of_reaches hc htc h.1 h.2⟩
  · intro i j c d hi hj hne a ha b hb hab
    obtain ⟨k, hk, e, he, hbe⟩ := hs.ordered i c hi a ha b hab
    have hjk : j = k := hs.index_eq hj he hb hbe
    omega

/-- The search by numbers ends, misses nothing and finds the strongly connected
components of every graph; it nests visits no deeper than there are nodes. -/
theorem components_exact (g : WaitGraph) :
    (∀ depth, g.nodes.length ≤ depth → g.components? depth = some g.components) ∧
      g.Decomposes g.components :=
  ⟨fun _ hd => (components_follow hd).1, decomposes_components g⟩

/-- A ring of three, a transaction that waits for it and one that it waits for. -/
def ringOfThree : WaitGraph :=
  (((empty.setWaits 1 [2]).setWaits 2 [3]).setWaits 3 [1, 5]).setWaits 4 [1]

theorem components_exact_ringOfThree :
    ringOfThree.components? 5 = some [[5], [1, 2, 3], [4]] ∧
      ringOfThree.Decomposes [[5], [1, 2, 3], [4]] := by
  have hc : ringOfThree.components = [[5], [1, 2, 3], [4]] := by decide +kernel
  have hn : ringOfThree.nodes.length ≤ 5 := by decide +kernel
  obtain ⟨hfinds, hparts⟩ := components_exact ringOfThree
  rw [hc] at hfinds hparts
  exact ⟨hfinds 5 hn, hparts⟩

/-! ## Rings -/

/-- A component has a first member, so none is looked at in vain. -/
theorem isRing?_eq : ∀ {part : List TxnId}, part ≠ [] → g.isRing? part = some (g.isRing part)
  | [_], _ => rfl
  | _ :: _ :: _, _ => if_pos (by simp)

theorem anyM_isRing : ∀ {parts : List (List TxnId)}, (∀ c ∈ parts, c ≠ []) →
    parts.anyM g.isRing? = some (parts.any g.isRing)
  | [], _ => rfl
  | part :: parts, h => by
    obtain ⟨hne, h⟩ := List.forall_mem_cons.1 h
    rw [List.anyM_cons, isRing?_eq hne, List.any_cons]
    cases g.isRing part
    · exact anyM_isRing h
    · rfl

theorem hasCycle?_eq {depth : Nat} (hd : g.nodes.length ≤ depth) :
    g.hasCycle? depth = some g.hasCycle := by
  rw [hasCycle?, (components_follow hd).1]
  exact anyM_isRing (decomposes_components g).inhabited

/-- The search ends, misses nothing and says whether there is a cycle. -/
def Answers (g : WaitGraph) (answer : Bool) : Prop :=
  ∀ depth, g.nodes.length ≤ depth → g.hasCycle? depth = some answer

theorem answers_iff {answer : Bool} : g.Answers answer ↔ g.hasCycle = answer := by
  refine ⟨fun h => ?_, fun h depth hd => by rw [hasCycle?_eq hd, h]⟩
  exact Option.some.inj ((hasCycle?_eq (Nat.le_refl _)).symm.trans (h _ (Nat.le_refl _)))

/-- Whoever reaches the waiter does so without the edges that leave it. -/
theorem reaches_setWaits {hs : List TxnId} : (g.setWaits t hs).Reaches u t ↔ g.Reaches u t := by
  refine ⟨reaches_of_agree fun a b ha he => ?_, reaches_of_agree fun a b ha he => ?_⟩
  · rwa [edge_setWaits, if_neg ha] at he
  · rwa [edge_setWaits, if_neg ha]

/-- Whatever it waited for, withdrawing the waiter leaves no ring. -/
theorem Acyclic.removeWaiter_setWaits (h : Acyclic g) (t : TxnId) (hs : List TxnId) :
    Acyclic ((g.setWaits t hs).removeWaiter t) := by
  refine h.mono fun a b he => ?_
  obtain ⟨ha, he⟩ := edge_removeWaiter.1 he
  rwa [edge_setWaits, if_neg ha] at he

/-- In every graph a cycle is found exactly if there is one. In an acyclic graph new
waits of `t` close one exactly if somebody waited for reaches `t`, before or after the
change, and withdrawing `t` opens it again. -/
theorem hasCycle_exact (g : WaitGraph) :
    (g.Answers true ↔ ∃ t, TransGen g.Edge t t) ∧ (g.Answers false ↔ Acyclic g) ∧
    (Acyclic g → ∀ t hs,
      ((g.setWaits t hs).Answers true ↔ ∃ u ∈ hs, u ≠ t ∧ g.Reaches u t) ∧
      (∀ u, (g.setWaits t hs).Reaches u t ↔ g.Reaches u t) ∧
      Acyclic ((g.setWaits t hs).removeWaiter t)) := by
  simp only [answers_iff]
  refine ⟨hasCycle_iff, hasCycle_eq_false_iff, fun h t hs => ?_⟩
  exact ⟨h.hasCycle_setWaits, fun u => reaches_setWaits, h.removeWaiter_setWaits t hs⟩

/-- A chain of three. -/
def chainOfThree : WaitGraph := (empty.setWaits 1 [2]).setWaits 2 [3]

theorem hasCycle_exact_chainOfThree :
    Acyclic chainOfThree ∧ (chainOfThree.setWaits 3 [4, 1]).Answers true ∧
      Acyclic ((chainOfThree.setWaits 3 [4, 1]).removeWaiter 3) := by
  have hacyclic : Acyclic chainOfThree := hasCycle_eq_false_iff.1 (by decide +kernel)
  obtain ⟨hclosed, -, hopen⟩ := (hasCycle_exact chainOfThree).2.2 hacyclic 3 [4, 1]
  refine ⟨hacyclic, hclosed.2 ⟨1, by simp, by simp, ?_⟩, hopen⟩
  have h12 : chainOfThree.Edge 1 2 := mem_waitsFor.1 (by decide +kernel)
  have h23 : chainOfThree.Edge 2 3 := mem_waitsFor.1 (by decide +kernel)
  exact .head h12 (.single h23)

end PageStore.WaitGraph
