import PageStore.Proofs.Pool.LastUse

/-!
# The order of use follows the calls

A page is put at the end of the order when it is used, and leaves the order when it is
removed or evicted. The log of a run of calls says what came of each of them, so it says
of every page whether it stays in the order, and of any two where they stand.

A predicate given to an eviction may keep a state of its own while it is asked about one
page after the other. A page is asked about once at most, so within one call it is still
a function of the page.

Results:
* `evictBy_eq_some_iff`, `evictBy_eq_none_iff`: an eviction takes the first page accepted.
* `traced_call`, `traced_callEach`: the order is the one that the log tells, for a call
  and for a run of calls.
* `order_follows_calls`: both for whatever was called since the order was empty.
-/
namespace PageStore.Recency

variable {r r' : Recency} {p q : PageId}

/-! ## Evictions -/

/-- What a predicate says about a page, given the pages asked about before in the same call.
One without a state does not look at these. -/
abbrev Predicate := List PageId → PageId → Bool

variable {accepts : Predicate} {pages asked rest : List PageId}

/-- What the predicate says about a page when its turn comes. -/
def answer (r : Recency) (accepts : Predicate) (p : PageId) : Bool :=
  accepts (r.order.takeWhile (· != p)) p

/-- An eviction as it is called: without a page to take out, the order stays. -/
def evictBy (r : Recency) (accepts : Predicate) : Option PageId × Recency :=
  match r.evict (r.answer accepts) with
  | some (p, r') => (some p, r')
  | none => (none, r)

/-- The predicate accepts none of the pages if it is asked about them in turn. -/
def Refuses (accepts : Predicate) (pages : List PageId) : Prop :=
  ∀ asked p, asked ++ [p] <+: pages → accepts asked p = false

/-- When the turn of a page comes, all that stand before it have been asked about. -/
theorem answer_eq (h : r.order.Nodup) (hp : asked ++ [p] <+: r.order) :
    r.answer accepts p = accepts asked p := by
  obtain ⟨rest, hrest⟩ := hp
  rw [List.append_assoc, List.singleton_append] at hrest
  rw [← hrest] at h
  have hbefore : ∀ q ∈ asked, (q != p) = true := fun q hq =>
    bne_iff_ne.2 ((List.nodup_append.1 h).2.2 q hq p List.mem_cons_self)
  rw [answer, ← hrest, List.takeWhile_append_of_pos hbefore]
  simp

theorem refuses_iff (h : r.order.Nodup) (hpages : pages <+: r.order) :
    Refuses accepts pages ↔ ∀ p ∈ pages, r.answer accepts p = false := by
  constructor
  · intro hrefuses p hp
    obtain ⟨asked, rest, rfl⟩ := List.append_of_mem hp
    have hturn : asked ++ [p] <+: asked ++ p :: rest := ⟨rest, by simp⟩
    rw [answer_eq h (hturn.trans hpages)]
    exact hrefuses asked p hturn
  · intro hanswer asked p hturn
    have hp : p ∈ pages := hturn.subset (List.mem_append_right _ List.mem_cons_self)
    exact (answer_eq h (hturn.trans hpages)).symm.trans (hanswer p hp)

theorem order_forget_of_split (h : r.order.Nodup) (hsplit : r.order = asked ++ p :: rest) :
    (r.forget p).order = asked ++ rest := by
  rw [hsplit, List.nodup_middle] at h
  have hp : p ∉ asked ++ rest := (List.nodup_cons.1 h).1
  calc (r.forget p).order = (asked ++ rest).filter (· != p) := by simp [forget, hsplit]
    _ = asked ++ rest := List.filter_eq_self.2 fun q hq => bne_iff_ne.2 fun he => hp (he ▸ hq)

theorem evictBy_eq_some (h : r.evictBy accepts = (some p, r')) :
    r.order.find? (r.answer accepts) = some p ∧ r' = r.forget p := by
  unfold evictBy evict at h
  cases hfind : r.order.find? (r.answer accepts) with
  | none => simp [hfind] at h
  | some v =>
    obtain ⟨rfl, rfl⟩ : v = p ∧ r.forget v = r' := by simpa [hfind] using h
    exact ⟨rfl, rfl⟩

/-- The page evicted is the first one accepted, and all others stay where they were. -/
theorem evictBy_eq_some_iff (h : r.order.Nodup) :
    r.evictBy accepts = (some p, r') ↔
      ∃ before after, r.order = before ++ p :: after ∧ Refuses accepts before ∧
        accepts before p = true ∧ r'.order = before ++ after := by
  constructor
  · intro he
    obtain ⟨hfind, rfl⟩ := evictBy_eq_some he
    obtain ⟨hp, before, after, hsplit, hbefore⟩ := List.find?_eq_some_iff_append.1 hfind
    have hturn : before ++ [p] <+: r.order := ⟨after, by simp [hsplit]⟩
    refine ⟨before, after, hsplit, ?_, ?_, order_forget_of_split h hsplit⟩
    · exact (refuses_iff h ⟨_, hsplit.symm⟩).2 fun q hq => by simpa using hbefore q hq
    · exact (answer_eq h hturn).symm.trans hp
  · rintro ⟨before, after, hsplit, hbefore, hp, horder⟩
    have hfind : r.order.find? (r.answer accepts) = some p := by
      refine List.find?_eq_some_iff_append.2 ⟨?_, before, after, hsplit, fun q hq => ?_⟩
      · exact (answer_eq h ⟨after, by simp [hsplit]⟩).trans hp
      · rw [(refuses_iff h ⟨_, hsplit.symm⟩).1 hbefore q hq, Bool.not_false]
    have hforget : r.forget p = r' := by
      rw [← order_forget_of_split h hsplit] at horder
      cases r'
      exact congrArg mk horder.symm
    simp [evictBy, evict, hfind, hforget]

/-- No page is evicted, and nothing changes, exactly if no page is accepted. -/
theorem evictBy_eq_none_iff (h : r.order.Nodup) :
    r.evictBy accepts = (none, r') ↔ Refuses accepts r.order ∧ r' = r := by
  rw [refuses_iff h (List.prefix_refl _), ← evict_eq_none_iff, evictBy]
  cases r.evict (r.answer accepts) with
  | none => simp [eq_comm]
  | some v => simp

/-! ## Calls and what came of them -/

inductive Call
  | access (p : PageId)
  | remove (p : PageId)
  | evict (accepts : Predicate)

inductive Event
  | accessed (p : PageId)
  | removed (p : PageId)
  | evicted (p : PageId)
  deriving DecidableEq, Repr

namespace Event

def page : Event → PageId
  | accessed p | removed p | evicted p => p

/-- The page used, if the event is a use. -/
def used? : Event → Option PageId
  | accessed p => some p
  | removed _ | evicted _ => none

end Event

def call (r : Recency) : Call → Recency
  | .access p => r.touch p
  | .remove p => r.forget p
  | .evict accepts => (r.evictBy accepts).2

def callEach (r : Recency) : List Call → Recency
  | [] => r
  | c :: calls => (r.call c).callEach calls

/-- What comes of a call. Of an eviction that finds no page, nothing does. -/
def eventsOf (r : Recency) : Call → List Event
  | .access p => [.accessed p]
  | .remove p => [.removed p]
  | .evict accepts => ((r.evictBy accepts).1.map .evicted).toList

/-- The log of a run of calls, oldest event first. -/
def eventsEach (r : Recency) : List Call → List Event
  | [] => []
  | c :: calls => r.eventsOf c ++ (r.call c).eventsEach calls

/-! ## The order that the log tells -/

variable {log : List Event} {e : Event}

/-- The uses in the log, oldest first. -/
def uses (log : List Event) : List PageId := log.filterMap Event.used?

/-- The page was used, and nothing has happened to it since: its last use came after it
was last removed or evicted. -/
def Stays (log : List Event) (p : PageId) : Prop :=
  ∃ after, (.accessed p :: after) <:+ log ∧ ∀ e ∈ after, e.page ≠ p

theorem not_stays_nil : ¬Stays [] p := by
  rintro ⟨after, h, -⟩
  cases List.suffix_nil.1 h

theorem stays_concat : Stays (log ++ [e]) p ↔ e = .accessed p ∨ (e.page ≠ p ∧ Stays log p) := by
  constructor
  · rintro ⟨after, hsuffix, hafter⟩
    -- the last event is the use itself or one that came after it
    obtain rfl | ⟨after, e', rfl⟩ := after.eq_nil_or_concat
    · obtain ⟨-, he⟩ := List.append_inj' (List.suffix_iff_eq_append.1 hsuffix) rfl
      exact .inl (List.singleton_inj.1 he).symm
    · rw [List.concat_eq_append] at hsuffix hafter
      rw [← List.cons_append] at hsuffix
      obtain ⟨before, hbefore⟩ := hsuffix
      rw [← List.append_assoc] at hbefore
      obtain ⟨hlog, he⟩ := List.append_inj' hbefore rfl
      cases he
      exact .inr ⟨hafter e (by simp), after, ⟨before, hlog⟩, fun e' he' => hafter e' (by simp [he'])⟩
  · rintro (rfl | ⟨he, after, ⟨before, rfl⟩, hafter⟩)
    · exact ⟨[], ⟨log, rfl⟩, by simp⟩
    · refine ⟨after ++ [e], ⟨before, by simp⟩, fun e' he' => ?_⟩
      rcases List.mem_append.1 he' with he' | he'
      · exact hafter e' he'
      · rwa [List.mem_singleton.1 he']

/-- The order holds each page that stays, once, and they stand in the order of their last uses. -/
structure Follows (log : List Event) (r : Recency) : Prop where
  nodup : r.order.Nodup
  mem_iff : ∀ p, p ∈ r.order ↔ Stays log p
  ordered : r.order.Pairwise (Older (uses log))

/-- What a call keeps: the order is that of the last uses, less the pages that left it. -/
structure Traced (log : List Event) (r : Recency) : Prop where
  aged : Aged (uses log) r
  mem_iff : ∀ p, p ∈ r.order ↔ Stays log p

theorem traced_empty : Traced [] empty :=
  ⟨List.nil_sublist _, fun p => by simp [empty, not_stays_nil]⟩

theorem Traced.follows (h : Traced log r) : Follows log r :=
  ⟨h.aged.nodup (List.nodup_dedup _), h.mem_iff, h.aged.pairwise⟩

theorem Traced.access (h : Traced log r) (p : PageId) :
    Traced (log ++ [.accessed p]) (r.touch p) := by
  constructor
  · simpa [uses, Event.used?] using h.aged.touch p
  · intro q
    rw [mem_touch, stays_concat, h.mem_iff, Event.accessed.injEq]
    rcases eq_or_ne p q with rfl | hq
    · simp
    · simp [hq, hq.symm, Event.page]

/-- A page leaves by an event that is not a use. -/
theorem Traced.leave (h : Traced log r) (he : e.used? = none) :
    Traced (log ++ [e]) (r.forget e.page) := by
  constructor
  · simpa [uses, he] using h.aged.forget e.page
  · intro q
    have hq : e ≠ .accessed q := fun hq => by simp [hq, Event.used?] at he
    rw [mem_forget, stays_concat, h.mem_iff, or_iff_right hq, and_comm, ne_comm]

theorem traced_call (h : Traced log r) (c : Call) :
    Traced (log ++ r.eventsOf c) (r.call c) := by
  cases c with
  | access p => exact h.access p
  | remove p => exact h.leave (e := .removed p) rfl
  | evict accepts =>
    rcases he : r.evictBy accepts with ⟨_ | v, r'⟩
    · obtain ⟨-, rfl⟩ := (evictBy_eq_none_iff h.follows.nodup).1 he
      simpa [eventsOf, call, he] using h
    · obtain ⟨-, rfl⟩ := evictBy_eq_some he
      simpa [eventsOf, call, he, Event.page] using h.leave (e := .evicted v) rfl

theorem traced_callEach : ∀ (calls : List Call) {log : List Event} {r : Recency},
    Traced log r → Traced (log ++ r.eventsEach calls) (r.callEach calls)
  | [], log, _, h => by rwa [eventsEach, List.append_nil]
  | c :: calls, log, r, h => by
    rw [eventsEach, ← List.append_assoc]
    exact traced_callEach calls (traced_call h c)

/-- Whatever was called since the order was empty, it holds the pages that were used and
neither removed nor evicted since their last use, in the order of their last uses. The
next eviction takes the first one that its predicate accepts and moves no other, and takes
none exactly if the predicate accepts none. -/
theorem order_follows_calls (calls : List Call) :
    Follows (empty.eventsEach calls) (empty.callEach calls) ∧
    ∀ (accepts : Predicate) (r' : Recency),
      (∀ p, (empty.callEach calls).evictBy accepts = (some p, r') ↔
        ∃ before after, (empty.callEach calls).order = before ++ p :: after ∧
          Refuses accepts before ∧ accepts before p = true ∧ r'.order = before ++ after) ∧
      ((empty.callEach calls).evictBy accepts = (none, r') ↔
        Refuses accepts (empty.callEach calls).order ∧ r' = empty.callEach calls) := by
  have htraced : Traced ([] ++ empty.eventsEach calls) (empty.callEach calls) :=
    traced_callEach calls traced_empty
  have hfollows : Follows (empty.eventsEach calls) (empty.callEach calls) := htraced.follows
  exact ⟨hfollows, fun accepts r' =>
    ⟨fun p => evictBy_eq_some_iff hfollows.nodup, evictBy_eq_none_iff hfollows.nodup⟩⟩

/-- The first page is used again, the second one leaves and comes back. -/
example : (empty.callEach [.access ⟨.numbered 1, 0⟩, .access ⟨.numbered 1, 1⟩, .access ⟨.numbered 1, 2⟩,
    .access ⟨.numbered 1, 0⟩, .evict fun _ _ => true, .access ⟨.numbered 1, 1⟩]).order =
    [⟨.numbered 1, 2⟩, ⟨.numbered 1, 0⟩, ⟨.numbered 1, 1⟩] := by
  decide

end PageStore.Recency
