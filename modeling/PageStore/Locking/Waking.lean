import PageStore.Locking.LockTable

/-!
# Requests and releases one step after another

Between two steps nobody acts, so a request is taken as far as it goes at once:
under a timeout, a request that has to wait is refused in the same step. A
releasing step lets every request that it woke take its turn, by ticket.

Results:
* `policy_turnAlone`: no step changes the policy.
-/
namespace PageStore.LockTable

variable {α : Type}

/-- A turn during which nobody else acts. -/
def turnAlone (l : LockTable α) (ticket : Ticket) (r : LockRequest α) (turn : Turn) :
    LockTable α × Verdict :=
  match l.request ticket r turn with
  | (l, .asleep) =>
    match l.policy with
    | .timeout _ => l.request ticket r .last
    | .cycleDetection => (l, .asleep)
  | done => done

/-- What a woken request came to. -/
structure Woken (α : Type) where
  ticket : Ticket
  request : LockRequest α
  verdict : Verdict

/-- Lets woken requests take their turns one after another. -/
def wake (l : LockTable α) : List (Ticket × LockRequest α) → LockTable α × List (Woken α)
  | [] => (l, [])
  | (ticket, r) :: rest =>
    let (l, verdict) := l.turnAlone ticket r .woken
    let (l, woken) := l.wake rest
    (l, ⟨ticket, r, verdict⟩ :: woken)

theorem policy_request (l : LockTable α) (ticket : Ticket) (r : LockRequest α) (turn : Turn) :
    (l.request ticket r turn).1.policy = l.policy := by
  unfold request
  split
  · rfl
  · unfold refuse
    split
    · next h =>
      dsimp only
      split <;> simp [h]
    · next h => split <;> simp [h]

theorem policy_turnAlone (l : LockTable α) (ticket : Ticket) (r : LockRequest α) (turn : Turn) :
    (l.turnAlone ticket r turn).1.policy = l.policy := by
  have h := policy_request l ticket r turn
  unfold turnAlone
  split
  · next l' e =>
    rw [e] at h
    split
    · rw [policy_request]; exact h
    · exact h
  · exact h

end PageStore.LockTable
