import RestClient.Lib.Machine

/-!
# Dynamic buffers

What the users of a dynamic buffer rely on. It holds elements that can be read; a user asks
for room behind them, writes there and commits what has been written, which can then be read.
Every other request takes the room back. Elements leave in the order in which they came.
-/

/-- The elements to be read, the room behind them, and what has been written there. -/
structure DynamicBuffer (β : Type*) where
  readable : List β
  room : ℕ
  written : List β
  maxSize : ℕ
  written_le : written.length ≤ room

namespace DynamicBuffer
open Machine
variable {β : Type*}

inductive Request (β : Type*) where
  | prepare (n : ℕ)
  | write (bytes : List β)
  | commit (n : ℕ)
  | consume (n : ℕ)
  | clear
  | reserve (n : ℕ)
  | shrinkToFit
  | setMaxSize (n : ℕ)

inductive Outcome (β : Type*) where
  | tooLong
  | appended (bytes : List β)
  | removed (bytes : List β)
  deriving DecidableEq

def empty (maxSize : ℕ) : DynamicBuffer β := ⟨[], 0, [], maxSize, Nat.le_of_eq List.length_nil⟩

/- The room is taken back. -/
def holding (b : DynamicBuffer β) (readable : List β) : DynamicBuffer β :=
  ⟨readable, 0, [], b.maxSize, Nat.le_of_eq List.length_nil⟩

/-- The requests that the contract allows: what is written fits, and only what has been
written is committed. No maximum is set above `limit`. -/
def step (limit : ℕ) : Step (DynamicBuffer β) (Request β) (Outcome β)
  | b, .prepare n =>
    if b.maxSize < b.readable.length + n then some (b, [.tooLong])
    else some (⟨b.readable, n, [], b.maxSize, Nat.zero_le n⟩, [])
  | b, .write bytes =>
    if h : bytes.length ≤ b.room then some (⟨b.readable, b.room, bytes, b.maxSize, h⟩, [])
    else none
  | b, .commit n =>
    if n ≤ b.written.length then
      some (b.holding (b.readable ++ b.written.take n), [.appended (b.written.take n)])
    else none
  | b, .consume n => some (b.holding (b.readable.drop n), [.removed (b.readable.take n)])
  | b, .clear => some (b.holding [], [.removed b.readable])
  | b, .reserve n =>
    if n ≤ limit then some ({ b.holding b.readable with maxSize := max b.maxSize n }, []) else none
  | b, .shrinkToFit => some (b.holding b.readable, [])
  | b, .setMaxSize n => if n ≤ limit then some ({ b with maxSize := n }, []) else none

def appended (log : List (Outcome β)) : List β :=
  log.flatMap fun
    | .appended bytes => bytes
    | _ => []

def removed (log : List (Outcome β)) : List β :=
  log.flatMap fun
    | .removed bytes => bytes
    | _ => []

theorem appended_append (log es : List (Outcome β)) :
    appended (log ++ es) = appended log ++ appended es := List.flatMap_append

theorem removed_append (log es : List (Outcome β)) :
    removed (log ++ es) = removed log ++ removed es := List.flatMap_append

theorem conserved_step {limit : ℕ} {b b' : DynamicBuffer β} {r : Request β}
    {es : List (Outcome β)} (h : step limit b r = some (b', es)) :
    b.readable ++ appended es = removed es ++ b'.readable := by
  cases r with
  | prepare n =>
    simp only [step] at h
    split at h <;> cases h <;> simp [appended, removed]
  | write bytes =>
    simp only [step] at h
    split at h <;> cases h
    simp [appended, removed]
  | commit n =>
    obtain ⟨-, h⟩ := Option.ite_none_right_eq_some.mp h
    cases h
    simp [appended, removed, holding]
  | consume n =>
    cases h
    simp [appended, removed, holding]
  | clear =>
    cases h
    simp [appended, removed, holding]
  | shrinkToFit =>
    cases h
    simp [appended, removed, holding]
  | reserve n | setMaxSize n =>
    obtain ⟨-, h⟩ := Option.ite_none_right_eq_some.mp h
    cases h
    simp [appended, removed, holding]

/-- What has been appended leaves in order, and what has not left can be read. -/
theorem conserved {limit : ℕ} {b b' : DynamicBuffer β} {rs : List (Request β)}
    {log : List (Outcome β)} (h : Run (step limit) b rs b' log) :
    b.readable ++ appended log = removed log ++ b'.readable := by
  refine h.invariant (fun b' log => b.readable ++ appended log = removed log ++ b'.readable)
    (List.append_nil _) ?_
  intro b₁ log r b₂ es hheld hs
  rw [appended_append, removed_append, ← List.append_assoc, hheld, List.append_assoc,
    conserved_step hs, ← List.append_assoc]

end DynamicBuffer
