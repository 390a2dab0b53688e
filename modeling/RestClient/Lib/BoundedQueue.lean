import RestClient.Lib.Machine

/-!
# Bounded first-in first-out queues

The abstract object behind a ring buffer: at most `cap` items, appended at the
back, removed at the front. A full queue refuses, an empty one answers so, and
both stay as they are.
-/

/-- A queue of at most `cap` items, oldest first. -/
structure BoundedQueue (α : Type*) (cap : ℕ) where
  items : List α
  bound : items.length ≤ cap

namespace BoundedQueue
variable {α : Type*} {cap : ℕ}

inductive Op (α : Type*) where
  | enqueue (x : α)
  | dequeue

inductive Outcome (α : Type*) where
  | accepted (x : α)
  | refused
  | got (x : α)
  | empty
  deriving DecidableEq

def nil : BoundedQueue α cap := ⟨[], Nat.zero_le cap⟩

def apply (q : BoundedQueue α cap) : Op α → BoundedQueue α cap × Outcome α
  | .enqueue x =>
    if h : q.items.length < cap then
      (⟨q.items ++ [x], by rw [List.length_append]; exact h⟩, .accepted x)
    else (q, .refused)
  | .dequeue =>
    match hq : q.items with
    | [] => (q, .empty)
    | x :: rest => (⟨rest, by have h := q.bound; simp only [hq, List.length_cons] at h; omega⟩, .got x)

/-- The queue as a machine: every operation is enabled and shows its outcome. -/
def step : Machine.Step (BoundedQueue α cap) (Op α) (Outcome α) :=
  fun q o => some ((q.apply o).1, [(q.apply o).2])

theorem enqueue_room (q : BoundedQueue α cap) (x : α) (h : q.items.length < cap) :
    (q.apply (.enqueue x)).1.items = q.items ++ [x] ∧
      (q.apply (.enqueue x)).2 = .accepted x := by
  simp [apply, h]

theorem enqueue_full (q : BoundedQueue α cap) (x : α) (h : q.items.length = cap) :
    q.apply (.enqueue x) = (q, .refused) := by
  simp [apply, h]

theorem dequeue_nil (q : BoundedQueue α cap) (h : q.items = []) :
    q.apply .dequeue = (q, .empty) := by
  simp only [apply]
  split
  · rfl
  · rename_i hq
    simp [h] at hq

theorem dequeue_cons (q : BoundedQueue α cap) (x : α) (rest : List α) (h : q.items = x :: rest) :
    (q.apply .dequeue).1.items = rest ∧ (q.apply .dequeue).2 = .got x := by
  simp only [apply]
  split
  · rename_i hq
    simp [h] at hq
  · rename_i hq
    rw [h] at hq
    obtain ⟨rfl, rfl⟩ := List.cons.inj hq
    exact ⟨rfl, rfl⟩

/-! ### The operations as runs of one step -/

theorem run_enqueue_room (q : BoundedQueue α cap) (x : α) (h : q.items.length < cap) :
    ∃ q', Machine.Run step q [.enqueue x] q' [.accepted x] ∧ q'.items = q.items ++ [x] := by
  obtain ⟨hitems, hout⟩ := enqueue_room q x h
  refine ⟨(q.apply (.enqueue x)).1, Machine.Run.single ?_, hitems⟩
  rw [step, hout]

theorem run_enqueue_full (q : BoundedQueue α cap) (x : α) (h : q.items.length = cap) :
    Machine.Run step q [.enqueue x] q [.refused] := by
  refine Machine.Run.single ?_
  rw [step, enqueue_full q x h]

theorem run_dequeue (q : BoundedQueue α cap) (x : α) (rest : List α) (h : q.items = x :: rest) :
    ∃ q', Machine.Run step q [.dequeue] q' [.got x] ∧ q'.items = rest := by
  obtain ⟨hitems, hout⟩ := dequeue_cons q x rest h
  refine ⟨(q.apply .dequeue).1, Machine.Run.single ?_, hitems⟩
  rw [step, hout]

end BoundedQueue
