import Mathlib.Data.List.Nodup
import Mathlib.Data.List.Range
import Mathlib.Data.Nat.ModEq
import Mathlib.Logic.Function.Basic

/-!
# Windows of positions over a ring of slots

Positions grow for ever and position `p` lives in slot `p % m`. A window is the
half-open interval of positions `r, …, w - 1`; as long as it spans at most `m`
positions its slots are distinct, so it is a queue: a push writes the slot of
`w`, a pop reads the slot of `r`.
-/

namespace RingWindow
variable {α : Type*} {m : ℕ} [NeZero m]

/-- The slot of a position. -/
def slotOf (m : ℕ) [NeZero m] (p : ℕ) : Fin m := ⟨p % m, Nat.mod_lt p (Nat.pos_of_neZero m)⟩

/-- Fewer than `m` apart, distinct positions have distinct slots. -/
theorem slotOf_ne {p q : ℕ} (hpq : p < q) (hq : q < p + m) : slotOf m p ≠ slotOf m q := by
  intro h
  have hmod : p % m = q % m := congrArg Fin.val h
  have hdvd : m ∣ q - p := (Nat.modEq_iff_dvd' hpq.le).mp hmod
  have hle := Nat.le_of_dvd (by omega) hdvd
  omega

/-- At most `m` consecutive positions have distinct slots. -/
theorem nodup_slots (r : ℕ) {k : ℕ} (hk : k ≤ m) :
    ((List.range' r k).map (slotOf m)).Nodup := by
  refine List.Nodup.map_on ?_ List.nodup_range'
  intro p hp q hq h
  obtain ⟨hrp, hpk⟩ := List.mem_range'_1.mp hp
  obtain ⟨hrq, hqk⟩ := List.mem_range'_1.mp hq
  by_contra hne
  rcases Nat.lt_or_gt_of_ne hne with hlt | hgt
  · exact slotOf_ne hlt (by omega) h
  · exact slotOf_ne hgt (by omega) h.symm

theorem slotOf_add_self (p : ℕ) : slotOf m (p + m) = slotOf m p :=
  Fin.ext (Nat.add_mod_right p m)

/-- The entries at positions `r, …, w - 1`, oldest first. -/
def window (slots : Fin m → α) (r w : ℕ) : List α :=
  (List.range' r (w - r)).map fun p => slots (slotOf m p)

@[simp] theorem window_length (slots : Fin m → α) (r w : ℕ) :
    (window slots r w).length = w - r := by
  simp [window]

@[simp] theorem window_self (slots : Fin m → α) (r : ℕ) : window slots r r = [] := by
  simp [window]

theorem window_pop (slots : Fin m → α) {r w : ℕ} (h : r < w) :
    window slots r w = slots (slotOf m r) :: window slots (r + 1) w := by
  have hlen : w - r = (w - (r + 1)) + 1 := by omega
  simp only [window, hlen, List.range'_succ, List.map_cons]

/-- Writing a slot outside the window leaves the window as it is. -/
theorem window_update_of_ne (slots : Fin m → α) {r w p : ℕ} (x : α)
    (h : ∀ q, r ≤ q → q < w → slotOf m q ≠ slotOf m p) :
    window (Function.update slots (slotOf m p) x) r w = window slots r w := by
  simp only [window]
  refine List.map_congr_left fun q hq => ?_
  obtain ⟨hr, hw⟩ := List.mem_range'_1.mp hq
  exact Function.update_of_ne (h q hr (by omega)) x slots

/-- Writing the slot of `w` appends to a window with room for it. -/
theorem window_push (slots : Fin m → α) {r w : ℕ} (x : α) (hrw : r ≤ w) (hroom : w < r + m) :
    window (Function.update slots (slotOf m w) x) r (w + 1) = window slots r w ++ [x] := by
  have hlen : w + 1 - r = (w - r) + 1 := by omega
  have hlast : r + (w - r) = w := by omega
  have hkeep := window_update_of_ne slots (r := r) (w := w) (p := w) x
    (fun q hq hqw => slotOf_ne hqw (by omega))
  rw [← hkeep]
  simp only [window, hlen, List.range'_1_concat, List.map_append, List.map_cons, List.map_nil,
    hlast, Function.update_self]

end RingWindow
