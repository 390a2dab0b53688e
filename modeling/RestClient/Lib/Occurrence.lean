import Mathlib.Data.List.Infix

/-!
# The first occurrence of a pattern

Where the first occurrence ends, in a list that may still grow: a later part of the list
does not move it, and a search may go on from where an earlier one has found nothing.
-/

namespace Occurrence
variable {β : Type*} [DecidableEq β] {pat : List β}

/-- The length of the shortest prefix that ends with the pattern; the pattern is not empty. -/
def endOfFirst (pat : List β) : List β → Option ℕ
  | [] => none
  | c :: b => if pat <+: c :: b then some pat.length else (endOfFirst pat b).map (· + 1)

theorem endOfFirst_here {c : β} {b : List β} (h : pat <+: c :: b) :
    endOfFirst pat (c :: b) = some pat.length := if_pos h

theorem endOfFirst_later {c : β} {b : List β} (h : ¬ pat <+: c :: b) :
    endOfFirst pat (c :: b) = (endOfFirst pat b).map (· + 1) := if_neg h

theorem endOfFirst_bounds {b : List β} {k : ℕ} (h : endOfFirst pat b = some k) :
    pat.length ≤ k ∧ k ≤ b.length := by
  induction b generalizing k with
  | nil => cases h
  | cons c b ih =>
    by_cases hp : pat <+: c :: b
    · rw [endOfFirst_here hp] at h
      cases h
      exact ⟨Nat.le_refl _, hp.length_le⟩
    · rw [endOfFirst_later hp] at h
      obtain ⟨k', hk', rfl⟩ := Option.map_eq_some_iff.mp h
      have hb := ih hk'
      rw [List.length_cons]
      omega

theorem endOfFirst_append {b : List β} {k : ℕ} (h : endOfFirst pat b = some k) (later : List β) :
    endOfFirst pat (b ++ later) = some k := by
  induction b generalizing k with
  | nil => cases h
  | cons c b ih =>
    by_cases hp : pat <+: c :: b
    · rw [endOfFirst_here hp] at h
      have hp' : pat <+: c :: (b ++ later) := hp.trans (List.prefix_append (c :: b) later)
      rw [List.cons_append, endOfFirst_here hp', h]
    · rw [endOfFirst_later hp] at h
      obtain ⟨k', hk', rfl⟩ := Option.map_eq_some_iff.mp h
      have hlen := endOfFirst_bounds hk'
      have hp' : ¬ pat <+: c :: (b ++ later) := fun hp' => hp <|
        List.prefix_of_prefix_length_le hp' (List.prefix_append (c :: b) later)
          (by rw [List.length_cons]; omega)
      rw [List.cons_append, endOfFirst_later hp', ih hk']
      rfl

/- An occurrence that is not all there is not found. -/
theorem endOfFirst_short {b t : List β} {k : ℕ} (h : endOfFirst pat (b ++ t) = some k)
    (hk : b.length < k) : endOfFirst pat b = none := by
  cases hb : endOfFirst pat b with
  | none => rfl
  | some j =>
    rw [endOfFirst_append hb t] at h
    cases h
    have hle := (endOfFirst_bounds hb).2
    omega

/- One that is all there is found without the rest. -/
theorem endOfFirst_within {b t : List β} {k : ℕ} (h : endOfFirst pat (b ++ t) = some k)
    (hk : k ≤ b.length) (hpat : pat ≠ []) : endOfFirst pat b = some k := by
  induction b generalizing k with
  | nil =>
    have hle := (endOfFirst_bounds h).1
    exact absurd (List.length_eq_zero_iff.mp (Nat.le_zero.mp (hle.trans hk))) hpat
  | cons c b ih =>
    by_cases hp : pat <+: c :: (b ++ t)
    · rw [List.cons_append, endOfFirst_here hp] at h
      cases h
      exact endOfFirst_here (List.prefix_of_prefix_length_le hp (List.prefix_append (c :: b) t) hk)
    · have hp' : ¬ pat <+: c :: b := fun hp' => hp (hp'.trans (List.prefix_append (c :: b) t))
      rw [List.cons_append, endOfFirst_later hp] at h
      obtain ⟨k', hk', rfl⟩ := Option.map_eq_some_iff.mp h
      rw [List.length_cons] at hk
      rw [endOfFirst_later hp', ih hk' (by omega)]
      rfl

theorem endOfFirst_drop {b : List β} {k s : ℕ} (h : endOfFirst pat b = some k)
    (hs : s + pat.length ≤ k) : endOfFirst pat (b.drop s) = some (k - s) := by
  induction b generalizing k s with
  | nil => cases h
  | cons c b ih =>
    cases s with
    | zero => exact h
    | succ s =>
      by_cases hp : pat <+: c :: b
      · rw [endOfFirst_here hp] at h
        cases h
        omega
      · rw [endOfFirst_later hp] at h
        obtain ⟨k', hk', rfl⟩ := Option.map_eq_some_iff.mp h
        rw [List.drop_succ_cons, ih hk' (by omega), Nat.add_sub_add_right]

theorem endOfFirst_drop_none {b : List β} (h : endOfFirst pat b = none) (s : ℕ) :
    endOfFirst pat (b.drop s) = none := by
  induction b generalizing s with
  | nil =>
    rw [List.drop_nil]
    rfl
  | cons c b ih =>
    cases s with
    | zero => exact h
    | succ s =>
      by_cases hp : pat <+: c :: b
      · rw [endOfFirst_here hp] at h
        cases h
      · rw [endOfFirst_later hp] at h
        exact ih (Option.map_eq_none_iff.mp h) s

/-- A search that found nothing is resumed where the pattern may begin. -/
theorem endOfFirst_resume {b : List β} {s : ℕ}
    (h : endOfFirst pat (b.take (s + (pat.length - 1))) = none) :
    endOfFirst pat b = (endOfFirst pat (b.drop s)).map (· + s) := by
  induction s generalizing b with
  | zero =>
    rw [List.drop_zero]
    exact (Option.map_id_apply).symm
  | succ s ih =>
    cases b with
    | nil => rfl
    | cons c b =>
      have hp : ¬ pat <+: c :: b := by
        intro hp
        rw [Nat.add_right_comm, List.take_succ_cons, endOfFirst_here] at h
        · cases h
        · rw [← List.take_succ_cons]
          exact List.prefix_take_iff.mpr ⟨hp, by omega⟩
      rw [Nat.add_right_comm, List.take_succ_cons, endOfFirst_later] at h
      · rw [endOfFirst_later hp, ih (Option.map_eq_none_iff.mp h), List.drop_succ_cons,
          Option.map_map]
        rfl
      · intro hp'
        rw [← List.take_succ_cons] at hp'
        exact hp (List.prefix_take_iff.mp hp').1

/- What does not hold the first symbol of the pattern. -/
theorem endOfFirst_text {a : β} {pat : List β} {t : List β} (ht : a ∉ t) (b : List β) :
    endOfFirst (a :: pat) (t ++ b) = (endOfFirst (a :: pat) b).map (· + t.length) := by
  induction t with
  | nil => exact (Option.map_id_apply).symm
  | cons c t ih =>
    obtain ⟨hne, ht⟩ := not_or.mp (mt List.mem_cons.mpr ht)
    have hp : ¬ a :: pat <+: c :: (t ++ b) := fun hp => hne (List.cons_prefix_cons.mp hp).1
    rw [List.cons_append, endOfFirst_later hp, ih ht, Option.map_map, List.length_cons]
    rfl

end Occurrence
