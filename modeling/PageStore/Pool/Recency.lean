import PageStore.Id

/-!
# Pages in the order of their last use

The order runs from the page that was used the longest time ago to the one
used last. Every page stands in it once.

Results:
* `mem_touch`, `mem_forget`: which pages the order holds after a use and after
  a removal.
* `nodup_touch`, `nodup_forget`: no page comes to stand in it twice.
* `evict_eq_none_iff`: nothing can be evicted exactly when no page is accepted.
-/
namespace PageStore

/-- Pages, least recently used first. -/
structure Recency where
  order : List PageId
  deriving DecidableEq, Repr, Inhabited

namespace Recency

def empty : Recency := ⟨[]⟩

/-- Takes a page out of the order.
mirrors `remove` -/
def forget (r : Recency) (p : PageId) : Recency := ⟨r.order.filter (· != p)⟩

/-- Makes a page the one used last.
mirrors `record_access` -/
def touch (r : Recency) (p : PageId) : Recency := ⟨(r.forget p).order ++ [p]⟩

/-- Takes out the page used the longest time ago among those accepted.
mirrors `evict` -/
def evict (r : Recency) (accepts : PageId → Bool) : Option (PageId × Recency) :=
  (r.order.find? accepts).map fun p => (p, r.forget p)

/-- How many pages an eviction looks at. -/
def looks (r : Recency) (accepts : PageId → Bool) : Nat :=
  (r.order.findIdx? accepts).elim r.order.length (· + 1)

theorem mem_forget {r : Recency} {p q : PageId} :
    q ∈ (r.forget p).order ↔ q ∈ r.order ∧ q ≠ p := by
  simp [forget]

theorem mem_touch {r : Recency} {p q : PageId} : q ∈ (r.touch p).order ↔ q ∈ r.order ∨ q = p := by
  simp only [touch, List.mem_append, mem_forget, List.mem_singleton]
  by_cases h : q = p <;> simp [h]

theorem nodup_forget {r : Recency} (p : PageId) (h : r.order.Nodup) : (r.forget p).order.Nodup :=
  List.filter_sublist.nodup h

theorem nodup_touch {r : Recency} (p : PageId) (h : r.order.Nodup) : (r.touch p).order.Nodup := by
  refine List.nodup_append.2 ⟨nodup_forget p h, by simp, ?_⟩
  intro a ha b hb
  rw [List.mem_singleton.1 hb]
  exact (mem_forget.1 ha).2

theorem evict_eq_none_iff {r : Recency} {accepts : PageId → Bool} :
    r.evict accepts = none ↔ ∀ p ∈ r.order, accepts p = false := by
  simp [evict]

end Recency
end PageStore
