import Mathlib.Data.Int.CardIntervalMod

/-!
# Segments of a cyclic repetition

The numbers below `n` repeated for ever, and the `k` of them from a position on. In
such a segment the numbers of occurrences of any two values differ by at most one.
-/

namespace Cyclic

def lap (n start k : ℕ) : List ℕ := (List.range k).map fun j => (start + j) % n

theorem lap_succ (n start k : ℕ) : lap n start (k + 1) = lap n start k ++ [(start + k) % n] := by
  rw [lap, List.range_succ, List.map_append]
  rfl

/-- Position `j` of the segment holds `i` when `j` is where `i` first comes, plus laps. -/
theorem position_iff {n i : ℕ} (hi : i < n) (start j : ℕ) :
    (start + j) % n = i ↔ j ≡ i + (n - start % n) [MOD n] := by
  have hstart : start % n < n := Nat.mod_lt start (Nat.zero_lt_of_lt hi)
  have hback : start + (i + (n - start % n)) ≡ i [MOD n] := by
    have hsplit := Nat.div_add_mod start n
    have hlaps : start + (i + (n - start % n)) = i + n * (start / n + 1) := by
      rw [Nat.mul_add, Nat.mul_one]
      omega
    rw [hlaps]
    exact Nat.add_mul_mod_self_left i n _
  have hmod : i % n = i := Nat.mod_eq_of_lt hi
  constructor
  · intro h
    have hsame : start + j ≡ start + (i + (n - start % n)) [MOD n] :=
      ((h.trans hmod.symm : start + j ≡ i [MOD n])).trans hback.symm
    exact Nat.ModEq.add_left_cancel' start hsame
  · intro h
    have hsame : (start + j) % n = i % n := (h.add_left start).trans hback
    exact hsame.trans hmod

theorem count_lap {n i : ℕ} (hi : i < n) (start k : ℕ) :
    (lap n start k).count i = Nat.count (· ≡ i + (n - start % n) [MOD n]) k := by
  induction k with
  | zero => rfl
  | succ k ih =>
    rw [lap_succ, List.count_append, ih, Nat.count_succ, List.count_singleton]
    by_cases h : (start + k) % n = i
    · rw [if_pos ((position_iff hi start k).mp h), if_pos (by simpa using h)]
    · rw [if_neg (mt (position_iff hi start k).mpr h), if_neg (by simpa using h)]

theorem count_lap_bounds {n i : ℕ} (hi : i < n) (start k : ℕ) :
    k / n ≤ (lap n start k).count i ∧ (lap n start k).count i ≤ k / n + 1 := by
  rw [count_lap hi, Nat.count_modEq_card k (Nat.zero_lt_of_lt hi)]
  split
  · omega
  · omega

/-- The occurrences of any two values differ by at most one. -/
theorem count_lap_le {n i j : ℕ} (hi : i < n) (hj : j < n) (start k : ℕ) :
    (lap n start k).count i ≤ (lap n start k).count j + 1 :=
  ((count_lap_bounds hi start k).2).trans
    (Nat.add_le_add_right (count_lap_bounds hj start k).1 1)

end Cyclic
