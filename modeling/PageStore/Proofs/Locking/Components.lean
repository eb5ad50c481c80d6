import Mathlib.Data.List.Nodup
import Mathlib.Logic.Relation
import PageStore.Locking.Components
import PageStore.Proofs.Locking.Safety

/-!
# The components are the strongly connected ones

While the search explores from a transaction, everything on the stack reaches
that transaction. What the exploration leaves on the stack above the entries it
found there (its `fresh` transactions) reaches an entry below them, and the
lowest height among the targets of their edges is known; so once nothing below
is reached, the fresh transactions are a component.

`Span` says this of a whole exploration, and of one that has still some
successors of its root to look at. A step for each of the three kinds of
successor (on the stack, placed, not seen yet) keeps it.

Results:
* `explore_spec`: exploring from an unseen transaction spans it, given that the
  unseen nodes are no more than the depth that is left.
* `components_sound`: the components are disjoint, each is strongly connected,
  edges lead to no later one, and every node is in one.
* `hasCycle_iff`: some component is a ring exactly when some transaction
  reaches itself by one edge or more.
-/
namespace PageStore.WaitGraph

open Relation

variable {g : WaitGraph} {s s' s'' : Search} {t u v w : TxnId}

/-- A path of edges, of any length. -/
abbrev Reaches (g : WaitGraph) : TxnId → TxnId → Prop := ReflTransGen g.Edge

theorem mem_waitsFor : u ∈ g.waitsFor t ↔ g.Edge t u := Std.TreeSet.mem_toList

/-! ## Nodes -/

theorem edge_iff : g.Edge t u ↔ ∃ us, g.edges[t]? = some us ∧ u ∈ us := by
  rw [Edge, targets, Std.TreeMap.getD_eq_getD_getElem?]
  cases g.edges[t]? <;> simp

theorem mem_nodes_of_edge (h : g.Edge t u) : t ∈ g.nodes ∧ u ∈ g.nodes := by
  obtain ⟨us, hus, hu⟩ := edge_iff.1 h
  have he : (t, us) ∈ g.edges.toList := Std.TreeMap.mem_toList_iff_getElem?_eq_some.2 hus
  simp only [nodes, Std.TreeSet.mem_toList, Std.TreeSet.mem_ofList, List.contains_iff_mem,
    List.mem_flatMap]
  exact ⟨⟨_, he, List.mem_cons_self⟩,
    ⟨_, he, List.mem_cons_of_mem _ (Std.TreeSet.mem_toList.2 hu)⟩⟩

/-! ## Heights -/

theorem heightIn_eq_none : ∀ {ts : List TxnId}, heightIn ts t = none ↔ t ∉ ts
  | [] => by simp [heightIn]
  | u :: ts => by
    by_cases h : u = t
    · simp [heightIn, h]
    · simp [heightIn, h, Ne.symm h, @heightIn_eq_none ts]

theorem mem_of_heightIn {ts : List TxnId} {h : Nat} (ht : heightIn ts t = some h) : t ∈ ts := by
  by_contra hn
  rw [heightIn_eq_none.2 hn] at ht
  cases ht

theorem heightIn_lt : ∀ {ts : List TxnId} {h : Nat}, heightIn ts t = some h → h < ts.length
  | u :: ts, h, ht => by
    rw [heightIn] at ht
    split at ht
    · cases ht; simp
    · have := heightIn_lt ht
      rw [List.length_cons]
      omega

/-- Entries on top leave the heights of those below alone. -/
theorem heightIn_append_of_not_mem : ∀ {top : List TxnId} (below : List TxnId), t ∉ top →
    heightIn (top ++ below) t = heightIn below t
  | [], _, _ => rfl
  | u :: top, below, ht => by
    rw [List.mem_cons, not_or] at ht
    rw [List.cons_append, heightIn, if_neg (Ne.symm ht.1), heightIn_append_of_not_mem below ht.2]

theorem le_heightIn_append : ∀ {top below : List TxnId} {h : Nat}, t ∈ top →
    heightIn (top ++ below) t = some h → below.length ≤ h
  | u :: top, below, h, ht, hh => by
    rw [List.cons_append, heightIn] at hh
    split at hh
    · cases hh; simp
    · next hne => exact le_heightIn_append ((List.mem_cons.1 ht).resolve_left (Ne.symm hne)) hh

/-! ## Search states -/

namespace Search

/-- The component of `t` is complete. -/
def Placed (s : Search) (t : TxnId) : Prop := ∃ c ∈ s.found, t ∈ c

/-- The search has been at `t`. -/
def Seen (s : Search) (t : TxnId) : Prop := t ∈ s.stack ∨ s.Placed t

theorem isPlaced_iff : s.isPlaced t = true ↔ s.Placed t := by
  simp [isPlaced, Placed]

theorem mem_flatten_found : t ∈ s.found.flatten ↔ s.Placed t := by
  simp [Placed]

/-- Every transaction is on the stack or in a component at most once; a
component is strongly connected, and edges lead from it to itself and to
earlier ones. -/
structure Sound (g : WaitGraph) (s : Search) : Prop where
  apart : (s.stack ++ s.found.flatten).Nodup
  strong : ∀ ts ∈ s.found, ∀ a ∈ ts, ∀ b ∈ ts, g.Reaches a b
  ordered : ∀ (i : Nat) (ts : List TxnId), s.found[i]? = some ts → ∀ a ∈ ts, ∀ b, g.Edge a b →
    ∃ j ≤ i, ∃ ts', s.found[j]? = some ts' ∧ b ∈ ts'

theorem Sound.not_placed (h : s.Sound g) (ht : t ∈ s.stack) : ¬s.Placed t := fun hp =>
  (List.nodup_append.1 h.apart).2.2 t ht t (mem_flatten_found.2 hp) rfl

theorem Sound.push (h : s.Sound g) (ht : ¬s.Seen t) :
    Sound g { s with stack := t :: s.stack } := by
  refine ⟨?_, h.strong, h.ordered⟩
  rw [List.cons_append, List.nodup_cons, List.mem_append, mem_flatten_found]
  exact ⟨ht, h.apart⟩

end Search

theorem mem_ascending {ts : List TxnId} : t ∈ ascending ts ↔ t ∈ ts := by
  rw [ascending, Std.TreeSet.mem_toList, Std.TreeSet.mem_ofList, List.contains_iff_mem]

theorem ascending_perm {ts : List TxnId} (h : ts.Nodup) : (ascending ts).Perm ts :=
  (List.perm_ext_iff_of_nodup (LockTable.nodup_of_distinct _) h).2 fun _ => mem_ascending

/-! ## Explorations -/

/-- What an exploration from `root` that began in `s` has done, if the
successors `todo` of `root` are still to come. -/
structure Span (g : WaitGraph) (s : Search) (root : TxnId) (todo : List TxnId) (s' : Search)
    (fresh : List TxnId) (low : Nat) : Prop where
  sound : s'.Sound g
  stack : s'.stack = fresh ++ s.stack
  found : s.found <+: s'.found
  connected : ∀ a ∈ fresh, g.Reaches a root ∧ g.Reaches root a
  edges : ∀ a ∈ fresh, ∀ b, g.Edge a b →
    (a = root ∧ b ∈ todo) ∨ (s'.Seen b ∧ ∀ h, heightIn s.stack b = some h → low ≤ h)
  low : low = s.stack.length ∨ ∃ y, heightIn s.stack y = some low ∧ g.Reaches root y

variable {todo fresh fresh' : List TxnId} {low low' : Nat}

namespace Span

theorem seen (h : Span g s t todo s' fresh low) (hu : s.Seen u) : s'.Seen u := by
  rcases hu with hu | ⟨ts, hts, hu⟩
  · exact .inl (h.stack ▸ List.mem_append_right _ hu)
  · exact .inr ⟨ts, h.found.subset hts, hu⟩

theorem low_le (h : Span g s t todo s' fresh low) : low ≤ s.stack.length := by
  rcases h.low with h | ⟨y, hy, -⟩
  · exact Nat.le_of_eq h
  · exact Nat.le_of_lt (heightIn_lt hy)

/-- Heights of the old entries are what they were. -/
theorem heightIn_eq (h : Span g s t todo s' fresh low) (hu : u ∈ s.stack) :
    heightIn s'.stack u = heightIn s.stack u := by
  rw [h.stack]
  refine heightIn_append_of_not_mem _ fun hf => ?_
  have hn := (List.nodup_append.1 h.sound.apart).1
  rw [h.stack] at hn
  exact (List.nodup_append.1 hn).2.2 u hf u hu rfl

/-- Every entry reaches the root while it is explored, the old ones by assumption. -/
theorem reaches (h : Span g s t todo s' fresh low) (hr : ∀ a ∈ s.stack, g.Reaches a t)
    (hu : u ∈ s'.stack) : g.Reaches u t := by
  rw [h.stack] at hu
  rcases List.mem_append.1 hu with hu | hu
  · exact (h.connected u hu).1
  · exact hr u hu

/-- A height found on the stack is that of an old entry or one of the fresh. -/
theorem low_of_height (h : Span g s t todo s' fresh low) {height : Nat}
    (hu : heightIn s'.stack u = some height) :
    heightIn s.stack u = some height ∨ s.stack.length ≤ height := by
  have hmem := mem_of_heightIn hu
  rw [h.stack] at hmem
  rcases List.mem_append.1 hmem with hf | hs
  · rw [h.stack] at hu
    exact .inr (le_heightIn_append hf hu)
  · rw [h.heightIn_eq hs] at hu
    exact .inl hu

/-- A successor that has been seen is done with once its height, if it has
one, is accounted for. -/
theorem skip (h : Span g s t (w :: todo) s' fresh low) (hw : s'.Seen w)
    (hl : ∀ height, heightIn s.stack w = some height → low' ≤ height) (hle : low' ≤ low)
    (hlow : low' = s.stack.length ∨ ∃ y, heightIn s.stack y = some low' ∧ g.Reaches t y) :
    Span g s t todo s' fresh low' := by
  refine ⟨h.sound, h.stack, h.found, h.connected, fun a ha b hab => ?_, hlow⟩
  rcases h.edges a ha b hab with ⟨rfl, hb⟩ | ⟨hb, hh⟩
  · rcases List.mem_cons.1 hb with rfl | hb
    · exact .inr ⟨hw, hl⟩
    · exact .inl ⟨rfl, hb⟩
  · exact .inr ⟨hb, fun height he => Nat.le_trans hle (hh height he)⟩

theorem onStack (h : Span g s t (w :: todo) s' fresh low) (hw : g.Edge t w) {height : Nat}
    (hh : heightIn s'.stack w = some height) : Span g s t todo s' fresh (min low height) := by
  refine h.skip (.inl (mem_of_heightIn hh)) (fun k hk => ?_) (Nat.min_le_left ..) ?_
  · rw [h.heightIn_eq (mem_of_heightIn hk), hk] at hh
    cases hh
    exact Nat.min_le_right ..
  · rcases Nat.le_total low height with hle | hle
    · rw [Nat.min_eq_left hle]
      exact h.low
    · rw [Nat.min_eq_right hle]
      rcases h.low_of_height hh with hs | hs
      · exact .inr ⟨w, hs, .single hw⟩
      · exact .inl (Nat.le_antisymm (Nat.le_trans hle h.low_le) hs)

theorem placed (h : Span g s t (w :: todo) s' fresh low) (hw : s'.Placed w) :
    Span g s t todo s' fresh low := by
  refine h.skip (.inr hw) (fun k hk => ?_) (Nat.le_refl _) h.low
  have hs : w ∈ s'.stack := h.stack ▸ List.mem_append_right _ (mem_of_heightIn hk)
  exact absurd hw (h.sound.not_placed hs)

end Span

/-- A finished exploration: its root has been seen, and what is left on the
stack reaches below where it began. -/
def Explored (g : WaitGraph) (t : TxnId) (s : Search) (r : Search × Nat) : Prop :=
  r.1.Seen t ∧ ∃ fresh, Span g s t [] r.1 fresh r.2 ∧ (fresh ≠ [] → r.2 < s.stack.length)

/-- A successor that has not been seen is explored in its turn. What it leaves
on the stack reaches an entry below, and from there the root. -/
theorem Span.explored (h : Span g s t (w :: todo) s' fresh low) (hw : g.Edge t w)
    (hr : ∀ a ∈ s.stack, g.Reaches a t) (hn : ¬s'.Seen w) {r : Search × Nat}
    (he : Explored g w s' r) : ∃ fresh', Span g s t todo r.1 (fresh' ++ fresh) (min low r.2) := by
  obtain ⟨hseen, fresh', hc, hlt⟩ := he
  refine ⟨fresh', hc.sound, ?_, h.found.trans hc.found, fun a ha => ?_, fun a ha b hab => ?_, ?_⟩
  · rw [hc.stack, h.stack, List.append_assoc]
  · rcases List.mem_append.1 ha with ha | ha
    · obtain ⟨haw, hwa⟩ := hc.connected a ha
      obtain hl | ⟨y, hy, hwy⟩ := hc.low
      · exact absurd (hlt (List.ne_nil_of_mem ha)) (by omega)
      · exact ⟨(haw.trans hwy).trans (h.reaches hr (mem_of_heightIn hy)), .head hw hwa⟩
    · exact h.connected a ha
  · rcases List.mem_append.1 ha with ha | ha
    · obtain ⟨_, hb⟩ | ⟨hb, hh⟩ := hc.edges a ha b hab
      · cases hb
      · refine .inr ⟨hb, fun k hk => Nat.le_trans (Nat.min_le_right ..) (hh k ?_)⟩
        rw [h.heightIn_eq (mem_of_heightIn hk)]
        exact hk
    · rcases h.edges a ha b hab with ⟨rfl, hb⟩ | ⟨hb, hh⟩
      · rcases List.mem_cons.1 hb with rfl | hb
        · exact .inr ⟨hseen, fun k hk => absurd (h.seen (.inl (mem_of_heightIn hk))) hn⟩
        · exact .inl ⟨rfl, hb⟩
      · exact .inr ⟨hc.seen hb, fun k hk => Nat.le_trans (Nat.min_le_left ..) (hh k hk)⟩
  · rcases Nat.le_total low r.2 with hle | hle
    · rw [Nat.min_eq_left hle]
      exact h.low
    · rw [Nat.min_eq_right hle]
      have hlen : s.stack.length ≤ s'.stack.length := by simp [h.stack]
      have hlow := h.low_le
      obtain hl | ⟨y, hy, hwy⟩ := hc.low
      · exact .inl (by omega)
      · rcases h.low_of_height hy with hs | hs
        · exact .inr ⟨y, hs, .head hw hwy⟩
        · exact .inl (by omega)

/-! ## Depth -/

/-- The unseen nodes are no more than `depth`. -/
def Room (g : WaitGraph) (depth : Nat) (s : Search) : Prop :=
  ∃ left : List TxnId, (∀ a ∈ g.nodes, ¬s.Seen a → a ∈ left) ∧ left.length ≤ depth

theorem room_nodes (g : WaitGraph) : Room g g.nodes.length ⟨[], []⟩ :=
  ⟨g.nodes, fun _ ha _ => ha, Nat.le_refl _⟩

theorem Room.mono {depth : Nat} (h : Room g depth s) (hs : ∀ a, s.Seen a → s'.Seen a) :
    Room g depth s' := by
  obtain ⟨left, hleft, hlen⟩ := h
  exact ⟨left, fun a ha hn => hleft a ha fun hseen => hn (hs a hseen), hlen⟩

theorem not_room_zero (ht : t ∈ g.nodes) (hn : ¬s.Seen t) : ¬Room g 0 s := by
  rintro ⟨left, hleft, hlen⟩
  rw [Nat.le_zero, List.length_eq_zero_iff] at hlen
  exact absurd (hleft t ht hn) (by simp [hlen])

theorem Room.push {depth : Nat} (h : Room g (depth + 1) s) (ht : t ∈ g.nodes) (hn : ¬s.Seen t) :
    Room g depth { s with stack := t :: s.stack } := by
  obtain ⟨left, hleft, hlen⟩ := h
  refine ⟨left.erase t, fun a ha hna => ?_, ?_⟩
  · have hne : a ≠ t := fun h => hna (.inl (h ▸ List.mem_cons_self))
    refine (List.mem_erase_of_ne hne).2 (hleft a ha fun hs => hna ?_)
    exact hs.imp (List.mem_cons_of_mem _) id
  · rw [List.length_erase_of_mem (hleft t ht hn)]
    omega

/-! ## The search -/

/-- What `visit` has to do for a sweep: explore whatever it is given. -/
def Explores (g : WaitGraph) (depth : Nat) (visit : TxnId → Search → Search × Nat) : Prop :=
  ∀ t s, t ∈ g.nodes → ¬s.Seen t → s.Sound g → (∀ a ∈ s.stack, g.Reaches a t) → Room g depth s →
    Explored g t s (visit t s)

theorem not_seen (hh : heightIn s.stack w = none) (hp : ¬s.isPlaced w = true) : ¬s.Seen w := by
  rintro (hw | hw)
  · exact heightIn_eq_none.1 hh hw
  · exact hp (Search.isPlaced_iff.2 hw)

theorem sweep_span {depth : Nat} {visit : TxnId → Search → Search × Nat}
    (hv : Explores g depth visit) (hr : ∀ a ∈ s.stack, g.Reaches a t) :
    ∀ (todo : List TxnId) (s' : Search) (fresh : List TxnId) (low : Nat),
      (∀ w ∈ todo, g.Edge t w) → Room g depth s' → t ∈ fresh → Span g s t todo s' fresh low →
      let r := sweep visit todo s' low
      ∃ fresh', t ∈ fresh' ∧ Span g s t [] r.1 fresh' r.2
  | [], s', fresh, low, _, _, ht, h => ⟨fresh, ht, h⟩
  | w :: todo, s', fresh, low, hw, hroom, ht, h => by
    obtain ⟨hedge, hw⟩ := List.forall_mem_cons.1 hw
    rw [sweep]
    split
    · next height hh => exact sweep_span hv hr todo s' fresh _ hw hroom ht (h.onStack hedge hh)
    · next hh =>
      split
      · next hp =>
        exact sweep_span hv hr todo s' fresh low hw hroom ht (h.placed (Search.isPlaced_iff.1 hp))
      · next hp =>
        have hn := not_seen hh hp
        have hreach : ∀ a ∈ s'.stack, g.Reaches a w := fun a ha => (h.reaches hr ha).tail hedge
        have he := hv w s' (mem_nodes_of_edge hedge).2 hn h.sound hreach hroom
        obtain ⟨fresh', h'⟩ := h.explored hedge hr hn he
        obtain ⟨-, top, htop, -⟩ := he
        exact sweep_span hv hr todo _ _ _ hw (hroom.mono fun a ha => htop.seen ha)
          (List.mem_append_right _ ht) h'

/-- Cutting the fresh part off the stack keeps the search sound, if it is strongly
connected and its edges lead into it or to components found before. -/
theorem Search.Sound.close (h : s.Sound g) {below : List TxnId} (hstack : s.stack = fresh ++ below)
    (hstrong : ∀ a ∈ fresh, ∀ b ∈ fresh, g.Reaches a b)
    (hout : ∀ a ∈ fresh, ∀ b, g.Edge a b → b ∈ fresh ∨ s.Placed b) :
    Search.Sound g ⟨below, s.found ++ [ascending fresh]⟩ := by
  have hapart : (fresh ++ below ++ s.found.flatten).Nodup := hstack ▸ h.apart
  have hfresh : fresh.Nodup := (List.nodup_append.1 (List.nodup_append.1 hapart).1).1
  refine ⟨?_, fun ts hts a ha b hb => ?_, fun i ts hi a ha b hab => ?_⟩
  · have he : below ++ (s.found ++ [ascending fresh]).flatten =
        below ++ s.found.flatten ++ ascending fresh := by simp
    have hp : (below ++ s.found.flatten ++ ascending fresh).Perm
        (fresh ++ (below ++ s.found.flatten)) :=
      List.perm_append_comm.trans ((ascending_perm hfresh).append_right _)
    rw [he]
    exact hp.nodup_iff.2 (List.append_assoc .. ▸ hapart)
  · rcases List.mem_append.1 hts with hts | hts
    · exact h.strong ts hts a ha b hb
    · cases List.mem_singleton.1 hts
      exact hstrong a (mem_ascending.1 ha) b (mem_ascending.1 hb)
  · rw [List.getElem?_append] at hi
    split at hi
    · obtain ⟨j, hj, ts', hts', hb⟩ := h.ordered i ts hi a ha b hab
      exact ⟨j, hj, ts', by rw [List.getElem?_append_left (by omega), hts'], hb⟩
    · next hge =>
      obtain ⟨he, rfl⟩ : i - s.found.length = 0 ∧ ascending fresh = ts := by
        simpa [List.getElem?_singleton] using hi
      rcases hout a (mem_ascending.1 ha) b hab with hb | ⟨us, hus, hb⟩
      · refine ⟨i, Nat.le_refl _, ascending fresh, ?_, mem_ascending.2 hb⟩
        rw [List.getElem?_append_right (Nat.not_lt.1 hge), he]
        rfl
      · obtain ⟨j, hj, rfl⟩ := List.mem_iff_getElem.1 hus
        refine ⟨j, by omega, s.found[j], ?_, hb⟩
        rw [List.getElem?_append_left hj, List.getElem?_eq_getElem hj]

/-- An exploration that reaches nothing below its beginning closes a component. -/
theorem Span.close (h : Span g s t [] s' fresh s.stack.length) (ht : t ∈ fresh) :
    Explored g t s (s'.close s.stack.length, s.stack.length) := by
  have hlen : s'.stack.length - s.stack.length = fresh.length := by simp [h.stack]
  have hclose : s'.close s.stack.length = ⟨s.stack, s'.found ++ [ascending fresh]⟩ := by
    rw [Search.close, hlen, h.stack, List.drop_left, List.take_left]
  have hout : ∀ a ∈ fresh, ∀ b, g.Edge a b → b ∈ fresh ∨ s'.Placed b := by
    intro a ha b hab
    rcases h.edges a ha b hab with ⟨_, hb⟩ | ⟨hb, hh⟩
    · cases hb
    · refine hb.imp_left fun hb => ?_
      rw [h.stack] at hb
      refine (List.mem_append.1 hb).resolve_right fun hs => ?_
      obtain ⟨k, hk⟩ := Option.ne_none_iff_exists'.1 fun hn => heightIn_eq_none.1 hn hs
      exact absurd (hh k hk) (Nat.not_le.2 (heightIn_lt hk))
  have hsound := h.sound.close h.stack
    (fun a ha b hb => (h.connected a ha).1.trans (h.connected b hb).2) hout
  rw [hclose]
  refine ⟨.inr ⟨ascending fresh, by simp, mem_ascending.2 ht⟩, [],
    ⟨hsound, rfl, h.found.trans (List.prefix_append ..), ?_, ?_, .inl rfl⟩, fun hn => absurd rfl hn⟩
  · exact fun a ha => absurd ha List.not_mem_nil
  · exact fun a ha => absurd ha List.not_mem_nil

theorem explore_spec : ∀ depth, Explores g depth (explore g depth)
  | 0, t, s, ht, hn, _, _, hroom => absurd hroom (not_room_zero ht hn)
  | depth + 1, t, s, ht, hn, hs, hr, hroom => by
    have hstart : Span g s t (g.waitsFor t) { s with stack := t :: s.stack } [t]
        s.stack.length := by
      refine ⟨hs.push hn, rfl, List.prefix_rfl, ?_, ?_, .inl rfl⟩
      · rintro a ha
        cases List.mem_singleton.1 ha
        exact ⟨.refl, .refl⟩
      · rintro a ha b hab
        cases List.mem_singleton.1 ha
        exact .inl ⟨rfl, mem_waitsFor.2 hab⟩
    obtain ⟨fresh, hf, h⟩ := sweep_span (explore_spec depth) hr (g.waitsFor t) _ _ _
      (fun w hw => mem_waitsFor.1 hw) (hroom.push ht hn) List.mem_cons_self hstart
    rw [explore]
    dsimp only
    split
    · next hl => exact (hl ▸ h).close hf
    · next hl =>
      have hlow := h.low_le
      exact ⟨.inl (h.stack ▸ List.mem_append_left _ hf), fresh, h, fun _ => by omega⟩

/-- Exploring one root after another leaves nothing on the stack. -/
theorem sweep_roots {depth : Nat} : ∀ (ts : List TxnId) (s : Search) (low : Nat),
    (∀ t ∈ ts, t ∈ g.nodes) →
    s.stack = [] → s.Sound g → Room g depth s →
    let s' := (sweep (explore g depth) ts s low).1
    s'.stack = [] ∧ s'.Sound g ∧ (∀ a, s.Placed a → s'.Placed a) ∧ ∀ t ∈ ts, s'.Placed t
  | [], s, _, _, hs, hsound, _ => ⟨hs, hsound, fun _ h => h, by simp⟩
  | t :: ts, s, low, hts, hs, hsound, hroom => by
    obtain ⟨ht, hts⟩ := List.forall_mem_cons.1 hts
    have hh : heightIn s.stack t = none := by rw [hs]; rfl
    rw [sweep, hh]
    dsimp only
    split
    · next hp =>
      obtain ⟨h1, h2, h3, h4⟩ := sweep_roots ts s low hts hs hsound hroom
      exact ⟨h1, h2, h3, List.forall_mem_cons.2 ⟨h3 t (Search.isPlaced_iff.1 hp), h4⟩⟩
    · next hp =>
      obtain ⟨hseen, fresh, h, hlt⟩ := explore_spec depth t s ht (not_seen hh hp) hsound
        (by simp [hs]) hroom
      have hfresh : fresh = [] := by
        by_contra hne
        exact absurd (hlt hne) (by simp [hs])
      have hs' : (explore g depth t s).1.stack = [] := by rw [h.stack, hfresh, hs, List.append_nil]
      obtain ⟨h1, h2, h3, h4⟩ := sweep_roots ts _ (min low (explore g depth t s).2) hts hs' h.sound
        (hroom.mono fun a ha => h.seen ha)
      have hplaced : (explore g depth t s).1.Placed t := hseen.resolve_left (by simp [hs'])
      refine ⟨h1, h2, fun a ⟨c, hc, ha⟩ => h3 a ⟨c, h.found.subset hc, ha⟩, ?_⟩
      exact List.forall_mem_cons.2 ⟨h3 t hplaced, h4⟩

/-! ## Components -/

/-- The search ends with nothing on the stack and every node in a component. -/
theorem sweep_nodes (g : WaitGraph) :
    (sweep (explore g g.nodes.length) g.nodes ⟨[], []⟩ 0).1 = ⟨[], g.components⟩ ∧
      Search.Sound g ⟨[], g.components⟩ ∧ ∀ t ∈ g.nodes, ∃ ts ∈ g.components, t ∈ ts := by
  obtain ⟨hstack, hsound, -, hall⟩ := sweep_roots g.nodes ⟨[], []⟩ 0 (fun _ ht => ht) rfl
    ⟨by simp, by simp, by simp⟩ (room_nodes g)
  have he : (sweep (explore g g.nodes.length) g.nodes ⟨[], []⟩ 0).1 = ⟨[], g.components⟩ :=
    congrArg (Search.mk · g.components) hstack
  rw [he] at hsound hall
  exact ⟨he, hsound, hall⟩

theorem components_sound (g : WaitGraph) :
    Search.Sound g ⟨[], g.components⟩ ∧ ∀ t ∈ g.nodes, ∃ ts ∈ g.components, t ∈ ts :=
  (sweep_nodes g).2

theorem Search.Sound.nodup_found (h : s.Sound g) : s.found.flatten.Nodup :=
  (List.nodup_append.1 h.apart).2.1

theorem Search.Sound.index_eq (h : s.Sound g) {i j : Nat} {ts ts' : List TxnId}
    (hi : s.found[i]? = some ts) (hj : s.found[j]? = some ts') (ht : t ∈ ts) (ht' : t ∈ ts') :
    i = j := by
  have hp := List.pairwise_iff_getElem.1 (List.nodup_flatten.1 h.nodup_found).2
  obtain ⟨hi', rfl⟩ := List.getElem?_eq_some_iff.1 hi
  obtain ⟨hj', rfl⟩ := List.getElem?_eq_some_iff.1 hj
  rcases Nat.lt_trichotomy i j with hij | hij | hij
  · exact absurd ht' (hp i j hi' hj' hij ht)
  · exact hij
  · exact absurd ht (hp j i hj' hi' hij ht')

/-- Along edges the components only become earlier. -/
theorem Search.Sound.index_le (h : s.Sound g) {i : Nat} {ts : List TxnId}
    (hi : s.found[i]? = some ts) (ht : t ∈ ts) (hr : g.Reaches t u) :
    ∃ j ≤ i, ∃ ts', s.found[j]? = some ts' ∧ u ∈ ts' := by
  induction hr with
  | refl => exact ⟨i, (Nat.le_refl _), ts, hi, ht⟩
  | tail _ he ih =>
    obtain ⟨j, hj, ts', hts', hb⟩ := ih
    obtain ⟨k, hk, ts'', hts'', hc⟩ := h.ordered j ts' hts' _ hb _ he
    exact ⟨k, Nat.le_trans hk hj, ts'', hts'', hc⟩

/-- Two transactions that reach each other are in one component. -/
theorem mem_of_reaches {c : List TxnId} (hc : c ∈ g.components) (ht : t ∈ c)
    (htu : g.Reaches t u) (hut : g.Reaches u t) : u ∈ c := by
  obtain ⟨hs, -⟩ := components_sound g
  obtain ⟨i, hi⟩ := List.mem_iff_getElem?.1 hc
  obtain ⟨j, hji, d, hj, hu⟩ := hs.index_le hi ht htu
  obtain ⟨k, hkj, e, hk, ht'⟩ := hs.index_le hj hu hut
  -- the way back ends in the component it began in, so no step of it leaves that component
  have hik : i = k := hs.index_eq hi hk ht ht'
  obtain rfl : i = j := by omega
  obtain rfl : c = d := Option.some.inj (hi.symm.trans hj)
  exact hu

/-- A search for rings among the components finds one exactly when some
transaction reaches itself along edges. -/
theorem hasCycle_iff : g.hasCycle = true ↔ ∃ t, TransGen g.Edge t t := by
  obtain ⟨hs, hnodes⟩ := components_sound g
  rw [hasCycle_iff_any]
  constructor
  · rintro ⟨ts, hts, hring⟩
    match ts, hring, hts with
    | [t], hring, _ => exact ⟨t, .single (Std.TreeSet.contains_iff_mem.1 hring)⟩
    | a :: b :: _, _, hts =>
      have hn : (a :: b :: _).Nodup := (List.nodup_flatten.1 hs.nodup_found).1 _ hts
      have hne : a ≠ b := fun h => (List.nodup_cons.1 hn).1 (h ▸ List.mem_cons_self)
      have hab : g.Reaches a b := hs.strong _ hts a (by simp) b (by simp)
      have hba : g.Reaches b a := hs.strong _ hts b (by simp) a (by simp)
      rcases reflTransGen_iff_eq_or_transGen.1 hab with h | h
      · exact absurd h.symm hne
      · exact ⟨a, h.trans_left hba⟩
  · rintro ⟨t, ht⟩
    obtain ⟨u, htu, hut⟩ := TransGen.head'_iff.1 ht
    obtain ⟨ts, hts, hmem⟩ := hnodes t (mem_nodes_of_edge htu).1
    have hu := mem_of_reaches hts hmem (.single htu) hut
    refine ⟨ts, hts, ?_⟩
    match ts, hmem, hu with
    | [x], hmem, hu =>
      cases List.mem_singleton.1 hmem
      cases List.mem_singleton.1 hu
      exact Std.TreeSet.contains_iff_mem.2 htu
    | _ :: _ :: _, _, _ => rfl

end PageStore.WaitGraph
