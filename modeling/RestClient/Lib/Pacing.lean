import Mathlib.Algebra.Order.Ring.Defs
import Mathlib.Data.Nat.Cast.Order.Ring
import Mathlib.Tactic.Linarith

/-!
# Events that keep a distance

Instants are elements of an ordered ring. Events whose instants are a distance of at
least `d` apart are at most `n` in any half-open window of length `n * d`.
-/

namespace Pacing
variable {T : Type*} [CommRing T] [LinearOrder T]

/-- The instants, in order, are `d` apart, and so is each from `wake`, before which
there is no further event. -/
structure Paced (d : T) (ts : List T) (wake : T) : Prop where
  apart : ts.Pairwise fun t t' => t + d ≤ t'
  before : ∀ t ∈ ts, t + d ≤ wake

/-- The instants within the half-open window from `start` on. -/
def within (start length : T) (ts : List T) : List T :=
  ts.filter fun t => start ≤ t ∧ t < start + length

theorem within_append (start length : T) (ts ts' : List T) :
    within start length (ts ++ ts') = within start length ts ++ within start length ts' :=
  List.filter_append ..

theorem paced_nil (d wake : T) : Paced d [] wake := ⟨.nil, fun t ht => by cases ht⟩

/-- No event, up to a later instant. -/
theorem Paced.pass {d wake wake' : T} {ts : List T} (h : Paced d ts wake) (hle : wake ≤ wake') :
    Paced d (ts ++ []) wake' := by
  rw [List.append_nil]
  exact ⟨h.apart, fun t ht => (h.before t ht).trans hle⟩

variable [IsStrictOrderedRing T]

/-- An event at an instant from `wake` on. -/
theorem Paced.fire {d wake t : T} {ts : List T} (h : Paced d ts wake) (hd : 0 ≤ d)
    (hle : wake ≤ t) : Paced d (ts ++ [t]) (t + d) := by
  have hbefore : ∀ t' ∈ ts, t' + d ≤ t := fun t' ht' => (h.before t' ht').trans hle
  refine ⟨?_, ?_⟩
  · rw [List.pairwise_append]
    refine ⟨h.apart, List.pairwise_singleton _ t, ?_⟩
    intro t' ht' u hu
    rw [List.mem_singleton.mp hu]
    exact hbefore t' ht'
  · intro t' ht'
    rcases List.mem_append.mp ht' with ht' | ht'
    · exact (hbefore t' ht').trans (le_add_of_nonneg_right hd)
    · rw [List.mem_singleton.mp ht']

/-- The last of `k + 1` events is at least `k * d` after the first. -/
theorem span_le {d t : T} {ts : List T} (h : (t :: ts).Pairwise fun t t' => t + d ≤ t') :
    ∃ u ∈ t :: ts, t + ts.length * d ≤ u := by
  induction ts generalizing t with
  | nil => exact ⟨t, List.mem_singleton_self t, by simp⟩
  | cons t₁ ts ih =>
    obtain ⟨hhead, htail⟩ := List.pairwise_cons.mp h
    obtain ⟨u, hu, hspan⟩ := ih htail
    have hnext : t + d ≤ t₁ := hhead t₁ (List.mem_cons_self ..)
    refine ⟨u, List.mem_cons_of_mem t hu, ?_⟩
    rw [List.length_cons, Nat.cast_succ]
    linarith

theorem Paced.within_le {d wake : T} {ts : List T} (h : Paced d ts wake) (hd : 0 < d)
    (start : T) (n : ℕ) : (within start (n * d) ts).length ≤ n := by
  have hapart := h.apart.filter fun t => decide (start ≤ t ∧ t < start + n * d)
  have hinside : ∀ t ∈ within start (n * d) ts, start ≤ t ∧ t < start + n * d := by
    intro t ht
    simpa using (List.mem_filter.mp ht).2
  change (within start (n * d) ts).Pairwise _ at hapart
  cases hts : within start (n * d) ts with
  | nil => exact Nat.zero_le n
  | cons t ts' =>
    rw [hts] at hapart hinside
    obtain ⟨u, hu, hspan⟩ := span_le hapart
    have hfirst := (hinside t (List.mem_cons_self ..)).1
    have hlast := (hinside u hu).2
    have hless : (ts'.length : T) * d < n * d := by linarith
    exact Nat.cast_lt.mp (lt_of_mul_lt_mul_right hless hd.le)

end Pacing
