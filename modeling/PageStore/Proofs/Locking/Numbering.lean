import Mathlib.Data.List.Pairwise
import PageStore.Proofs.Locking.WaitGraph

/-!
# The search by numbers and low points

Tarjan's search, as it is usually told, numbers the transactions as it meets
them and keeps for each the lowest number that was reached from it, its low
point; a component is complete when the low point of a transaction is its own
number. `visit?` is this search. Every number and low point is looked up in a
table, and a visit is nested in that of the transaction it was met from; the
search is `none` if something is missing in a table, or if visits would have to be
nested deeper than they may.

Numbers ascend with the heights on the stack, so the search of
`WaitGraph.components` goes the same way: when it has come to the height of some
entry, the low point is that entry's number (`Stands`). So the search by numbers
misses nothing, and visits are nested no deeper than there are nodes.

Results:
* `sweep_follows`: a successor leaves the same low point in both searches, whether
  it is on the stack, in a component or new.
* `visit_follows`: from an unseen transaction both searches do the same.
* `components_follow`: the search by numbers finds the components.
-/
namespace PageStore.WaitGraph

open Relation

/-- The tables of the search: numbers and low points of all transactions met so
far, the stack of those whose component is open, and the components found. -/
structure Numbering where
  next : Nat
  number : Std.TreeMap TxnId Nat
  low : Std.TreeMap TxnId Nat
  stack : List TxnId
  onStack : Std.TreeSet TxnId
  found : List (List TxnId)

namespace Numbering

def empty : Numbering := ⟨0, ∅, ∅, [], ∅, []⟩

/-- Gives a transaction the next number and puts it on the stack. -/
def enter (r : Numbering) (t : TxnId) : Numbering :=
  { next := r.next + 1
    number := r.number.insert t r.next
    low := r.low.insert t r.next
    stack := t :: r.stack
    onStack := r.onStack.insert t
    found := r.found }

def withLow (r : Numbering) (t : TxnId) (n : Nat) : Numbering := { r with low := r.low.insert t n }

/-- Lowers the low point of `t` to a number that was looked up. -/
def lower (r : Numbering) (t : TxnId) (n : Option Nat) : Option Numbering := do
  let low ← r.low[t]?
  let n ← n
  return r.withLow t (min low n)

/-- Takes transactions off the stack until `t` is among them: those taken, what is
left of the stack, and who is left on it. -/
def popTo (t : TxnId) : List TxnId → Std.TreeSet TxnId → List TxnId × List TxnId × Std.TreeSet TxnId
  | [], on => ([], [], on)
  | u :: rest, on =>
    if u = t then ([u], rest, on.erase u)
    else
      let (taken, left, on) := popTo t rest (on.erase u)
      (u :: taken, left, on)

/-- Makes a component of `t` and everything above it. -/
def cut (r : Numbering) (t : TxnId) : Numbering :=
  let (taken, left, on) := popTo t r.stack r.onStack
  { r with stack := left, onStack := on, found := r.found ++ [taken.mergeSort] }

/-- Ends the visit of `t`. -/
def leave (r : Numbering) (t : TxnId) : Option Numbering := do
  let low ← r.low[t]?
  let n ← r.number[t]?
  if low = n then return r.cut t else return r

end Numbering

/-- What a visit of `t` does when it meets `u`. -/
def meet (visit : TxnId → Numbering → Option Numbering) (t : TxnId) (r : Numbering) (u : TxnId) :
    Option Numbering :=
  if r.number.contains u then
    if r.onStack.contains u then r.lower t r.number[u]? else some r
  else do
    let r ← visit u r
    r.lower t r.low[u]?

/-- Visits `t` and everything reached from it that was not met before, with visits
nested no deeper than `depth`.
mirrors `visit` -/
def visit? (g : WaitGraph) : Nat → TxnId → Numbering → Option Numbering
  | 0, _, _ => none
  | depth + 1, t, r => do
    let r ← (g.waitsFor t).foldlM (meet (visit? g depth) t) (r.enter t)
    r.leave t

/-- Visits a root, unless it was met before. -/
def visitRoot (visit : TxnId → Numbering → Option Numbering) (r : Numbering) (t : TxnId) :
    Option Numbering :=
  if r.number.contains t then some r else visit t r

/-- The components, found by numbers.
mirrors `strongly_connected_components` -/
def components? (g : WaitGraph) (depth : Nat) : Option (List (List TxnId)) := do
  let r ← g.nodes.foldlM (visitRoot (visit? g depth)) .empty
  return r.found

/-- Whether a component has several members or one that waits for itself. -/
def isRing? (g : WaitGraph) (part : List TxnId) : Option Bool :=
  if 1 < part.length then some true
  else do
    let t ← part[0]?
    return (g.targets t).contains t

/-- mirrors `has_cycle` -/
def hasCycle? (g : WaitGraph) (depth : Nat) : Option Bool := do
  let parts ← g.components? depth
  parts.anyM g.isRing?

variable {g : WaitGraph} {visit : TxnId → Numbering → Option Numbering} {s s' : Search}
  {r r' r'' : Numbering} {t u w : TxnId} {low n k : Nat} {top below : List TxnId}

/-! ## Numbers and heights -/

namespace Numbering

/-- The number of a transaction that was met. -/
def num (r : Numbering) (t : TxnId) : Nat := r.number.getD t 0

theorem number_eq (h : t ∈ r.number) : r.number[t]? = some (r.num t) := by
  rw [num, Std.TreeMap.getD_eq_getD_getElem?]
  obtain ⟨n, hn⟩ := Option.isSome_iff_exists.1 (Std.TreeMap.mem_iff_isSome_getElem?.1 h)
  rw [hn, Option.getD_some]

@[simp] theorem num_withLow (r : Numbering) (t : TxnId) (n : Nat) (u : TxnId) :
    (r.withLow t n).num u = r.num u := rfl

theorem num_enter (r : Numbering) (t u : TxnId) :
    (r.enter t).num u = if u = t then r.next else r.num u := by
  simp only [num, enter, Std.TreeMap.getD_insert, Std.LawfulEqCmp.compare_eq_iff_eq, eq_comm (a := t)]

theorem mem_enter : u ∈ (r.enter t).number ↔ u = t ∨ u ∈ r.number := by
  simp only [enter, Std.TreeMap.mem_insert, Std.LawfulEqCmp.compare_eq_iff_eq, eq_comm (a := t)]

theorem low_withLow (r : Numbering) (t : TxnId) (n : Nat) (u : TxnId) :
    (r.withLow t n).low[u]? = if u = t then some n else r.low[u]? := by
  simp only [withLow, Std.TreeMap.getElem?_insert, Std.LawfulEqCmp.compare_eq_iff_eq,
    eq_comm (a := t)]

/-- The stack above `t` is taken off, and `t` with it. -/
theorem popTo_append (t : TxnId) (below : List TxnId) : ∀ (top : List TxnId) (on : Std.TreeSet TxnId),
    t ∉ top → ∃ on', popTo t (top ++ t :: below) on = (top ++ [t], below, on') ∧
      ∀ u, u ∈ on' ↔ u ∈ on ∧ u ∉ top ++ [t]
  | [], on, _ => by
    refine ⟨on.erase t, by simp [popTo], fun u => ?_⟩
    simp only [Std.TreeSet.mem_erase, Std.LawfulEqCmp.compare_eq_iff_eq, ne_eq, List.nil_append,
      List.mem_singleton, eq_comm (a := t), and_comm]
  | x :: top, on, h => by
    rw [List.mem_cons, not_or] at h
    obtain ⟨on', he, hon⟩ := popTo_append t below top (on.erase x) h.2
    refine ⟨on', by simp [popTo, Ne.symm h.1, he], fun u => ?_⟩
    rw [hon, Std.TreeSet.mem_erase]
    simp only [Std.LawfulEqCmp.compare_eq_iff_eq, ne_eq, List.cons_append, List.mem_cons, not_or,
      eq_comm (a := x)]
    tauto

end Numbering

/-- An entry of the stack is known by its height. -/
theorem heightIn_injective : ∀ {ts : List TxnId} {a b : TxnId} {h : Nat}, heightIn ts a = some h →
    heightIn ts b = some h → a = b
  | x :: ts, a, b, h, ha, hb => by
    rw [heightIn] at ha hb
    by_cases hxa : x = a
    · by_cases hxb : x = b
      · exact hxa.symm.trans hxb
      · rw [if_pos hxa] at ha
        rw [if_neg hxb] at hb
        cases ha
        exact absurd (heightIn_lt hb) (Nat.lt_irrefl _)
    · rw [if_neg hxa] at ha
      by_cases hxb : x = b
      · rw [if_pos hxb] at hb
        cases hb
        exact absurd (heightIn_lt ha) (Nat.lt_irrefl _)
      · rw [if_neg hxb] at hb
        exact heightIn_injective ha hb

/-- Numbers that descend along the stack ascend with the heights. -/
theorem num_lt_of_heightIn {num : TxnId → Nat} : ∀ {ts : List TxnId} {a b : TxnId} {h k : Nat},
    ts.Pairwise (fun x y => num y < num x) → heightIn ts a = some h → heightIn ts b = some k →
      h < k → num a < num b
  | x :: ts, a, b, h, k, hp, ha, hb, hlt => by
    obtain ⟨hx, hp⟩ := List.pairwise_cons.1 hp
    rw [heightIn] at ha hb
    by_cases hxa : x = a
    · rw [if_pos hxa] at ha
      cases ha
      split at hb
      · cases hb
        exact absurd hlt (Nat.lt_irrefl _)
      · exact absurd (heightIn_lt hb) (by omega)
    · rw [if_neg hxa] at ha
      by_cases hxb : x = b
      · subst hxb
        exact hx a (mem_of_heightIn ha)
      · rw [if_neg hxb] at hb
        exact num_lt_of_heightIn hp ha hb hlt

/-! ## One search follows the other -/

/-- The tables are those of a search that has come as far as `s`. -/
structure Follows (g : WaitGraph) (s : Search) (r : Numbering) : Prop where
  stack : r.stack = s.stack
  found : r.found = s.found
  seen : ∀ a, a ∈ r.number ↔ s.Seen a
  onStack : ∀ a, a ∈ r.onStack ↔ a ∈ s.stack
  descending : s.stack.Pairwise fun a b => r.num b < r.num a
  below : ∀ a ∈ r.number, r.num a < r.next
  node : ∀ a ∈ r.number, a ∈ g.nodes
  part : ∀ c ∈ s.found, c ≠ [] ∧ c.Pairwise (· < ·)

/-- Numbers stay, and so do low points but for that of `t`. -/
structure Keeps (t : TxnId) (r r' : Numbering) : Prop where
  number : ∀ a ∈ r.number, r'.number[a]? = r.number[a]?
  low : ∀ a ∈ r.number, a ≠ t → r'.low[a]? = r.low[a]?
  next : r.next ≤ r'.next

/-- A number stands for a height: it is that of the entry there, or both are
above everything on the stack. -/
def Stands (s : Search) (r : Numbering) (n height : Nat) : Prop :=
  (∃ a, heightIn s.stack a = some height ∧ n = r.num a) ∨
    (s.stack.length ≤ height ∧ ∀ a ∈ s.stack, r.num a < n)

/-- The low point of `t` is the number of the entry at a height. -/
def LowAt (s : Search) (r : Numbering) (t : TxnId) (height : Nat) : Prop :=
  ∃ a, heightIn s.stack a = some height ∧ r.low[t]? = some (r.num a)

namespace Keeps

theorem refl (t : TxnId) (r : Numbering) : Keeps t r r :=
  ⟨fun _ _ => rfl, fun _ _ _ => rfl, Nat.le_refl _⟩

theorem mem (h : Keeps t r r') (ha : u ∈ r.number) : u ∈ r'.number := by
  rw [Std.TreeMap.mem_iff_isSome_getElem?, h.number u ha]
  exact Std.TreeMap.mem_iff_isSome_getElem?.1 ha

theorem trans (h : Keeps t r r') (h' : Keeps t r' r'') : Keeps t r r'' :=
  ⟨fun a ha => (h'.number a (h.mem ha)).trans (h.number a ha),
    fun a ha hne => (h'.low a (h.mem ha) hne).trans (h.low a ha hne), Nat.le_trans h.next h'.next⟩

theorem num (h : Keeps t r r') (ha : u ∈ r.number) : r'.num u = r.num u := by
  have hn := h.number u ha
  rw [Numbering.number_eq ha, Numbering.number_eq (h.mem ha)] at hn
  exact Option.some.inj hn

/-- Who is new has no table entries to be kept. -/
theorem of_new (h : Keeps w r r') (hw : w ∉ r.number) (t : TxnId) : Keeps t r r' :=
  ⟨h.number, fun a ha _ => h.low a ha fun he => hw (he ▸ ha), h.next⟩

end Keeps

namespace Follows

theorem mem_number (h : Follows g s r) (ht : t ∈ s.stack) : t ∈ r.number := (h.seen t).2 (.inl ht)

theorem withLow (h : Follows g s r) (t : TxnId) (n : Nat) : Follows g s (r.withLow t n) :=
  ⟨h.stack, h.found, h.seen, h.onStack, h.descending, h.below, h.node, h.part⟩

theorem keeps_withLow (r : Numbering) (t : TxnId) (n : Nat) : Keeps t r (r.withLow t n) := by
  refine ⟨fun _ _ => rfl, fun a _ hne => ?_, Nat.le_refl _⟩
  rw [Numbering.low_withLow, if_neg hne]

theorem num_le_of_heightIn (h : Follows g s r) (ht : heightIn s.stack t = some n)
    (hu : heightIn s.stack u = some k) (hle : n ≤ k) : r.num t ≤ r.num u := by
  rcases Nat.lt_or_eq_of_le hle with hlt | rfl
  · exact Nat.le_of_lt (num_lt_of_heightIn h.descending ht hu hlt)
  · exact Nat.le_of_eq (by rw [heightIn_injective ht hu])

/-- Lowering a low point lowers the height. -/
theorem lower (h : Follows g s r) (hl : LowAt s r t low) (hn : Stands s r n k) :
    ∃ r', r.lower t (some n) = some r' ∧ Follows g s r' ∧ LowAt s r' t (min low k) ∧ Keeps t r r' := by
  obtain ⟨a, ha, hlow⟩ := hl
  refine ⟨r.withLow t (min (r.num a) n), by simp [Numbering.lower, hlow], h.withLow _ _, ?_,
    keeps_withLow _ _ _⟩
  rcases hn with ⟨b, hb, rfl⟩ | ⟨hk, hall⟩
  · rcases Nat.le_total low k with hle | hle
    · have hnum := h.num_le_of_heightIn ha hb hle
      exact ⟨a, by rw [ha, Nat.min_eq_left hle], by simp [Numbering.low_withLow, Nat.min_eq_left hnum]⟩
    · have hnum := h.num_le_of_heightIn hb ha hle
      exact ⟨b, by rw [hb, Nat.min_eq_right hle], by simp [Numbering.low_withLow, Nat.min_eq_right hnum]⟩
  · -- `n` is above all numbers on the stack, so nothing is lowered in either search
    have hlt := heightIn_lt ha
    have hnum := hall a (mem_of_heightIn ha)
    refine ⟨a, ?_, ?_⟩
    · rw [ha, Nat.min_eq_left (by omega)]
    · simp [Numbering.low_withLow, Nat.min_eq_left (Nat.le_of_lt hnum)]

theorem enter (h : Follows g s r) (ht : t ∈ g.nodes) (hn : ¬s.Seen t) :
    Follows g { s with stack := t :: s.stack } (r.enter t) := by
  have hnew : t ∉ r.number := fun hm => hn ((h.seen t).1 hm)
  have hold : ∀ a ∈ r.number, (r.enter t).num a = r.num a := by
    intro a ha
    have hne : a ≠ t := fun he => hnew (he ▸ ha)
    rw [Numbering.num_enter, if_neg hne]
  have hself : (r.enter t).num t = r.next := by rw [Numbering.num_enter, if_pos rfl]
  refine ⟨by rw [Numbering.enter, h.stack], h.found, fun a => ?_, fun a => ?_,
    List.pairwise_cons.2 ⟨fun a ha => ?_, ?_⟩, fun a ha => ?_, fun a ha => ?_, h.part⟩
  · rw [Numbering.mem_enter, h.seen]
    simp only [Search.Seen, Search.Placed, List.mem_cons, or_assoc]
  · simp only [Numbering.enter, Std.TreeSet.mem_insert, Std.LawfulEqCmp.compare_eq_iff_eq,
      eq_comm (a := t), h.onStack, List.mem_cons]
  · rw [hself, hold a (h.mem_number ha)]
    exact h.below a (h.mem_number ha)
  · refine h.descending.imp_of_mem fun {a b} ha hb hab => ?_
    rwa [hold a (h.mem_number ha), hold b (h.mem_number hb)]
  · rcases Numbering.mem_enter.1 ha with rfl | ha
    · rw [hself]
      exact Nat.lt_succ_self _
    · rw [hold a ha]
      exact Nat.lt_succ_of_lt (h.below a ha)
  · rcases Numbering.mem_enter.1 ha with rfl | ha
    · exact ht
    · exact h.node a ha

theorem keeps_enter (hnew : t ∉ r.number) : Keeps t r (r.enter t) := by
  refine ⟨fun a ha => ?_, fun a ha hne => ?_, Nat.le_succ _⟩
  · have hne : t ≠ a := fun he => hnew (he ▸ ha)
    simp [Numbering.enter, Std.TreeMap.getElem?_insert, hne]
  · simp [Numbering.enter, Std.TreeMap.getElem?_insert, Ne.symm hne]

end Follows

/-! ## Visits -/

/-- What a visit of `t` has done, if the other search came to `e`. -/
structure Visited (g : WaitGraph) (s : Search) (r : Numbering) (t : TxnId) (e : Search × Nat)
    (r' : Numbering) : Prop where
  follows : Follows g e.1 r'
  stack : ∃ top, e.1.stack = top ++ s.stack
  keeps : Keeps t r r'
  low : ∃ n, r'.low[t]? = some n ∧ Stands e.1 r' n e.2

/-- Visits of what was not met yet follow the other search. -/
def VisitsFollow (g : WaitGraph) (depth : Nat) (visit : TxnId → Numbering → Option Numbering) :
    Prop :=
  ∀ t s r, t ∈ g.nodes → ¬s.Seen t → Room g depth s → Follows g s r →
    ∃ r', visit t r = some r' ∧ Visited g s r t (explore g depth t s) r'

/-- What is met on the stack is known by its number. -/
theorem meet_onStack (h : Follows g s r) (hu : u ∈ s.stack) :
    meet visit t r u = r.lower t (some (r.num u)) := by
  have hm := h.mem_number hu
  rw [meet, if_pos (Std.TreeMap.contains_iff_mem.2 hm),
    if_pos (Std.TreeSet.contains_iff_mem.2 ((h.onStack u).2 hu)), Numbering.number_eq hm]

/-- What is met in a component is passed over. -/
theorem meet_placed (h : Follows g s r) (hu : u ∉ s.stack) (hp : s.Placed u) :
    meet visit t r u = some r := by
  have hon : ¬r.onStack.contains u = true := fun hc =>
    hu ((h.onStack u).1 (Std.TreeSet.contains_iff_mem.1 hc))
  rw [meet, if_pos (Std.TreeMap.contains_iff_mem.2 ((h.seen u).2 (.inr hp))), if_neg hon]

theorem meet_new (h : Follows g s r) (hn : ¬s.Seen u) :
    meet visit t r u = (visit u r).bind fun r => r.lower t r.low[u]? := by
  have hnew : ¬r.number.contains u = true := fun hc =>
    hn ((h.seen u).1 (Std.TreeMap.contains_iff_mem.1 hc))
  rw [meet, if_neg hnew]
  rfl

/-- A visit leaves the low points of the entries below where they were. -/
theorem Visited.lowAt {e : Search × Nat} (h : Visited g s r u e r') (hf : Follows g s r)
    (hn : ¬s.Seen u) (ht : t ∈ s.stack) (hl : LowAt s r t low) : LowAt e.1 r' t low := by
  obtain ⟨a, ha, hlow⟩ := hl
  obtain ⟨top, hstack⟩ := h.stack
  have hmem := mem_of_heightIn ha
  have hne : t ≠ u := fun he => hn (.inl (he ▸ ht))
  have hlt : ∀ b ∈ top, r'.num a < r'.num b := by
    have hd := h.follows.descending
    rw [hstack, List.pairwise_append] at hd
    exact fun b hb => hd.2.2 b hb a hmem
  have htop : a ∉ top := fun hm => Nat.lt_irrefl _ (hlt a hm)
  refine ⟨a, by rw [hstack, heightIn_append_of_not_mem s.stack htop, ha], ?_⟩
  rw [h.keeps.low t (hf.mem_number ht) hne, hlow, h.keeps.num (hf.mem_number hmem)]

/-- What looking at successors of `t` has done, if the other search came to `e`. -/
structure Swept (g : WaitGraph) (s : Search) (r : Numbering) (t : TxnId) (e : Search × Nat)
    (r' : Numbering) : Prop where
  follows : Follows g e.1 r'
  stack : ∃ top, e.1.stack = top ++ s.stack
  keeps : Keeps t r r'
  low : LowAt e.1 r' t e.2

theorem Swept.after {e : Search × Nat} (h : Swept g s' r' t e r'') (hs : ∃ top, s'.stack = top ++ s.stack)
    (hk : Keeps t r r') : Swept g s r t e r'' := by
  obtain ⟨top, hs⟩ := hs
  obtain ⟨top', hs'⟩ := h.stack
  exact ⟨h.follows, ⟨top' ++ top, by rw [hs', hs, List.append_assoc]⟩, hk.trans h.keeps, h.low⟩

/-- The successors are looked at one after another, whatever is found about each. -/
theorem sweep_follows {depth : Nat} (hv : VisitsFollow g depth visit) :
    ∀ (todo : List TxnId) (s : Search) (r : Numbering) (low : Nat),
    (∀ u ∈ todo, u ∈ g.nodes) → Room g depth s → Follows g s r → t ∈ s.stack → LowAt s r t low →
        ∃ r', todo.foldlM (meet visit t) r = some r' ∧
          Swept g s r t (sweep (explore g depth) todo s low) r'
  | [], s, r, low, _, _, h, _, hl => ⟨r, rfl, h, ⟨[], rfl⟩, .refl t r, hl⟩
  | u :: todo, s, r, low, hnodes, hroom, h, ht, hl => by
    obtain ⟨hu, hnodes⟩ := List.forall_mem_cons.1 hnodes
    rw [sweep, List.foldlM_cons]
    split
    · next height hh =>
      rw [meet_onStack h (mem_of_heightIn hh)]
      obtain ⟨r₁, he, h₁, hl₁, hk₁⟩ := h.lower hl (.inl ⟨u, hh, rfl⟩)
      obtain ⟨r₂, he₂, hs₂⟩ := sweep_follows hv todo s r₁ _ hnodes hroom h₁ ht hl₁
      exact ⟨r₂, by rw [he]; exact he₂, hs₂.after ⟨[], rfl⟩ hk₁⟩
    next hh =>
    split
    · next hp =>
      rw [meet_placed h (heightIn_eq_none.1 hh) (Search.isPlaced_iff.1 hp)]
      exact sweep_follows hv todo s r low hnodes hroom h ht hl
    · next hp =>
      have hn := not_seen hh hp
      have hnew : u ∉ r.number := fun hm => hn ((h.seen u).1 hm)
      rw [meet_new h hn]
      obtain ⟨r₁, he₁, hvis⟩ := hv u s r hu hn hroom h
      obtain ⟨n, hlow, hstands⟩ := hvis.low
      -- the visit has not touched the low point of `t`, which is lowered only now
      obtain ⟨r₂, he₂, h₂, hl₂, hk₂⟩ := hvis.follows.lower (hvis.lowAt h hn ht hl) hstands
      have hseen : ∀ a, s.Seen a → (explore g depth u s).1.Seen a := fun a ha =>
        (hvis.follows.seen a).1 (hvis.keeps.mem ((h.seen a).2 ha))
      obtain ⟨top, hstack⟩ := hvis.stack
      have ht' : t ∈ (explore g depth u s).1.stack := hstack ▸ List.mem_append_right top ht
      obtain ⟨r₃, he₃, hs₃⟩ := sweep_follows hv todo _ r₂ _ hnodes (hroom.mono hseen) h₂ ht' hl₂
      refine ⟨r₃, ?_, hs₃.after hvis.stack ((hvis.keeps.of_new hnew t).trans hk₂)⟩
      rw [he₁, Option.bind_some, hlow, he₂]
      exact he₃

/-! ## Leaving -/

theorem ascending_pairwise (ts : List TxnId) : (ascending ts).Pairwise (· < ·) := by
  refine Std.TreeSet.ordered_toList.imp fun {a b} h => ?_
  exact Nat.compare_eq_lt.1 h

/-- Sorting a component is listing it in ascending order. -/
theorem mergeSort_eq_ascending {ts : List TxnId} (h : ts.Nodup) : ts.mergeSort = ascending ts := by
  have hs : ts.mergeSort.Pairwise (· ≤ ·) := by
    have hs := @List.pairwise_mergeSort TxnId (fun a b => decide (a ≤ b))
      (fun a b c => by simpa using Nat.le_trans) (fun a b => by simpa using Nat.le_total a b) ts
    simpa using hs
  exact List.Perm.eq_of_pairwise (fun a b _ _ => Nat.le_antisymm) hs
    ((ascending_pairwise ts).imp Nat.le_of_lt) ((List.mergeSort_perm ..).trans (ascending_perm h).symm)

theorem close_append (hstack : s.stack = top ++ t :: below) :
    s.close below.length = ⟨below, s.found ++ [ascending (top ++ [t])]⟩ := by
  rw [List.append_cons] at hstack
  have hlen : s.stack.length - below.length = (top ++ [t]).length := by
    rw [hstack, List.length_append]
    omega
  rw [Search.close, hlen, hstack, List.drop_left, List.take_left]

/-- Cutting off `t` and everything above it closes the same component. -/
theorem Follows.cut (h : Follows g s r) (hstack : s.stack = top ++ t :: below) :
    Follows g (s.close below.length) (r.cut t) := by
  have hd := h.descending
  rw [hstack, List.append_cons] at hd
  obtain ⟨htaken, hbelow, hapart⟩ := List.pairwise_append.1 hd
  have hnodup : (top ++ [t]).Nodup := htaken.imp fun {a b} hlt he => by
    rw [he] at hlt
    exact Nat.lt_irrefl _ hlt
  have hnotin : ∀ a ∈ below, a ∉ top ++ [t] := fun a ha hm => Nat.lt_irrefl _ (hapart a hm a ha)
  have ht : t ∉ top := by
    have := (List.nodup_append.1 hnodup).2.2
    exact fun hm => this t hm t (List.mem_singleton.2 rfl) rfl
  obtain ⟨on, hpop, hon⟩ := Numbering.popTo_append t below top r.onStack ht
  have hcut : r.cut t =
      { r with stack := below, onStack := on, found := r.found ++ [ascending (top ++ [t])] } := by
    rw [Numbering.cut, h.stack, hstack, hpop]
    dsimp only
    rw [mergeSort_eq_ascending hnodup]
  rw [close_append hstack, hcut]
  refine ⟨rfl, by rw [h.found], fun a => ?_, fun a => ?_, hbelow, h.below, h.node, fun c hc => ?_⟩
  · rw [h.seen]
    simp only [Search.Seen, Search.Placed, hstack, List.mem_append, List.mem_cons,
      List.not_mem_nil, or_false, or_and_right, exists_or, exists_eq_left, mem_ascending]
    generalize (∃ c, c ∈ s.found ∧ a ∈ c) = placed
    tauto
  · rw [hon, h.onStack, hstack, List.append_cons, List.mem_append]
    exact ⟨fun hm => hm.1.resolve_left hm.2, fun hm => ⟨.inr hm, hnotin a hm⟩⟩
  · rcases List.mem_append.1 hc with hc | hc
    · exact h.part c hc
    · cases List.mem_singleton.1 hc
      have hmem : t ∈ ascending (top ++ [t]) := mem_ascending.2 (by simp)
      exact ⟨List.ne_nil_of_mem hmem, ascending_pairwise _⟩

theorem Keeps.cut (r : Numbering) (t : TxnId) : Keeps t r (r.cut t) :=
  ⟨fun _ _ => rfl, fun _ _ _ => rfl, Nat.le_refl _⟩

/-- Ending the visit of `t` closes its component exactly if the other search does. -/
theorem Swept.leave (h : Swept g { s with stack := t :: s.stack } (r.enter t) t (s', low) r')
    (hnew : t ∉ r.number) :
    ∃ r'', r'.leave t = some r'' ∧ Visited g s r t
      (if low = s.stack.length then (s'.close s.stack.length, s.stack.length) else (s', low))
      r'' := by
  obtain ⟨hf, ⟨top, hstack⟩, hk, a, ha, hlow⟩ := h
  have hkeeps : Keeps t r r' := (Follows.keeps_enter hnew).trans hk
  have hd := hf.descending
  rw [hstack, List.pairwise_append, List.pairwise_cons] at hd
  obtain ⟨-, ⟨hbelow, -⟩, htop⟩ := hd
  have ht : heightIn s'.stack t = some s.stack.length := by
    have hn : t ∉ top := fun hm => Nat.lt_irrefl _ (htop t hm t List.mem_cons_self)
    rw [hstack, heightIn_append_of_not_mem _ hn, heightIn, if_pos rfl]
  have hleave : r'.leave t = if r'.num a = r'.num t then some (r'.cut t) else some r' := by
    rw [Numbering.leave, hlow, Numbering.number_eq (hf.mem_number (mem_of_heightIn ht))]
    rfl
  rw [hleave]
  -- `t` is at the height where the visit began, and no other entry has its number
  by_cases hl : low = s.stack.length
  · obtain rfl : a = t := heightIn_injective ha (hl ▸ ht)
    rw [if_pos rfl, if_pos hl]
    have hbelow' : (s'.close s.stack.length).stack = s.stack := by rw [close_append hstack]
    refine ⟨_, rfl, hf.cut hstack, ⟨[], hbelow'⟩, hkeeps.trans (.cut r' a), _, hlow, .inr ?_⟩
    rw [hbelow']
    exact ⟨Nat.le_refl _, hbelow⟩
  · have hne : r'.num a ≠ r'.num t := by
      rcases Nat.lt_or_gt_of_ne hl with hlt | hgt
      · exact Nat.ne_of_lt (num_lt_of_heightIn hf.descending ha ht hlt)
      · exact Nat.ne_of_gt (num_lt_of_heightIn hf.descending ht ha hgt)
    rw [if_neg hne, if_neg hl]
    exact ⟨_, rfl, hf, ⟨top ++ [t], by rw [hstack, List.append_cons]⟩, hkeeps, _, hlow,
      .inl ⟨a, ha, rfl⟩⟩

/-- From an unseen transaction both searches do the same. -/
theorem visit_follows : ∀ {depth bound : Nat}, depth ≤ bound → VisitsFollow g depth (visit? g bound)
  | 0, _, _, _, _, _, ht, hn, hroom, _ => absurd hroom (not_room_zero ht hn)
  | depth + 1, bound + 1, hle, t, s, r, ht, hn, hroom, h => by
    have hnew : t ∉ r.number := fun hm => hn ((h.seen t).1 hm)
    have hself : LowAt { s with stack := t :: s.stack } (r.enter t) t s.stack.length := by
      refine ⟨t, by rw [heightIn, if_pos rfl], ?_⟩
      rw [Numbering.num_enter, if_pos rfl, Numbering.enter, Std.TreeMap.getElem?_insert_self]
    obtain ⟨r', he, hs⟩ :=
      sweep_follows (visit_follows (Nat.le_of_succ_le_succ hle)) (g.waitsFor t) _ _ s.stack.length
      (fun u hu => (mem_nodes_of_edge (mem_waitsFor.1 hu)).2) (hroom.push ht hn) (h.enter ht hn)
      List.mem_cons_self hself
    obtain ⟨r'', hl, hv⟩ := hs.leave hnew
    refine ⟨r'', ?_, hv⟩
    rw [visit?, he]
    exact hl

/-- The roots are taken one after another. -/
theorem roots_follow {depth : Nat} (hv : VisitsFollow g depth visit) :
    ∀ (todo : List TxnId) (s : Search) (r : Numbering) (low : Nat),
    (∀ t ∈ todo, t ∈ g.nodes) → Room g depth s → Follows g s r →
      ∃ r', todo.foldlM (visitRoot visit) r = some r' ∧
        Follows g (sweep (explore g depth) todo s low).1 r'
  | [], _, r, _, _, _, h => ⟨r, rfl, h⟩
  | t :: todo, s, r, low, hnodes, hroom, h => by
    obtain ⟨ht, hnodes⟩ := List.forall_mem_cons.1 hnodes
    have hskip : s.Seen t → visitRoot visit r t = some r := fun hs =>
      if_pos (Std.TreeMap.contains_iff_mem.2 ((h.seen t).2 hs))
    rw [sweep]
    split
    · next height hh =>
      rw [List.foldlM_cons, hskip (.inl (mem_of_heightIn hh))]
      exact roots_follow hv todo s r _ hnodes hroom h
    next hh =>
    split
    · next hp =>
      rw [List.foldlM_cons, hskip (.inr (Search.isPlaced_iff.1 hp))]
      exact roots_follow hv todo s r _ hnodes hroom h
    · next hp =>
      have hn := not_seen hh hp
      have hnew : ¬r.number.contains t = true := fun hc =>
        hn ((h.seen t).1 (Std.TreeMap.contains_iff_mem.1 hc))
      obtain ⟨r', he, hvis⟩ := hv t s r ht hn hroom h
      have hseen : ∀ a, s.Seen a → (explore g depth t s).1.Seen a := fun a ha =>
        (hvis.follows.seen a).1 (hvis.keeps.mem ((h.seen a).2 ha))
      rw [List.foldlM_cons, visitRoot, if_neg hnew, he]
      exact roots_follow hv todo _ r' _ hnodes (hroom.mono hseen) hvis.follows

/-! ## Components -/

theorem follows_empty : Follows g ⟨[], []⟩ .empty := by
  refine ⟨rfl, rfl, fun a => ?_, fun a => ?_, .nil, fun a ha => ?_, fun a ha => ?_, fun c hc => ?_⟩
  · simp [Numbering.empty, Search.Seen, Search.Placed]
  · simp [Numbering.empty]
  · simp [Numbering.empty] at ha
  · simp [Numbering.empty] at ha
  · simp at hc

/-- Visits are nested no deeper than there are nodes; then the search misses nothing
and finds the components. -/
theorem components_follow {depth : Nat} (hd : g.nodes.length ≤ depth) :
    g.components? depth = some g.components ∧ ∃ r, Follows g ⟨[], g.components⟩ r := by
  obtain ⟨r, he, h⟩ := roots_follow (visit_follows hd) g.nodes ⟨[], []⟩ .empty 0 (fun _ ht => ht)
    (room_nodes g) follows_empty
  rw [(sweep_nodes g).1] at h
  exact ⟨by rw [components?, he]; exact congrArg some h.found, r, h⟩

end PageStore.WaitGraph
