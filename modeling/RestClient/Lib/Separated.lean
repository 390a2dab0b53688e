import Mathlib.Data.List.Infix

/-!
# Lists joined by a separator

A pattern that does not contain the separator occurs in a joined list exactly
when it occurs in one of the parts.
-/

namespace Separated
variable {α : Type*}

theorem intercalate_append_head (c : α) (x y : List α) (ls : List (List α)) :
    [c].intercalate ((x ++ y) :: ls) = x ++ [c].intercalate (y :: ls) := by
  cases ls with
  | nil => rw [List.intercalate_singleton, List.intercalate_singleton]
  | cons z ls =>
    rw [List.intercalate_cons_cons, List.intercalate_cons_cons]
    simp only [List.append_assoc]

/-- Appending the parts one after the other, each after a separator. -/
theorem foldl_append_eq (c : α) (x : List α) (ls : List (List α)) :
    ls.foldl (fun acc l => acc ++ c :: l) x = [c].intercalate (x :: ls) := by
  induction ls generalizing x with
  | nil => exact List.intercalate_singleton.symm
  | cons l ls ih =>
    have hstep : x ++ c :: l = (x ++ [c]) ++ l := by simp
    rw [List.foldl_cons, ih, hstep, intercalate_append_head, List.intercalate_cons_cons]

/-- An occurrence cannot span a separator that it does not contain. -/
theorem infix_append_cons_iff {p : List α} {c : α} (hc : c ∉ p) (a b : List α) :
    p <:+: a ++ c :: b ↔ p <:+: a ∨ p <:+: b := by
  constructor
  · rintro ⟨s, t, h⟩
    rcases List.append_eq_append_iff.mp h with ⟨u, ha, -⟩ | ⟨u, hsp, hcb⟩
    · exact .inl ⟨s, u, ha.symm⟩
    · cases u with
      | nil =>
        rw [List.append_nil] at hsp
        exact .inl ⟨s, [], by rw [List.append_nil, hsp]⟩
      | cons d u =>
        obtain ⟨rfl, rfl⟩ := List.cons.inj hcb
        rcases List.append_eq_append_iff.mp hsp with ⟨v, -, hp⟩ | ⟨v, -, hv⟩
        · refine absurd ?_ hc
          rw [hp]
          exact List.mem_append_right _ (List.mem_cons_self ..)
        · cases v with
          | nil =>
            refine absurd ?_ hc
            rw [← List.nil_append p, ← hv]
            exact List.mem_cons_self ..
          | cons e v =>
            obtain ⟨-, rfl⟩ := List.cons.inj hv
            exact .inr ⟨v, t, rfl⟩
  · rintro (⟨s, t, rfl⟩ | ⟨s, t, rfl⟩)
    · exact ⟨s, t ++ c :: b, by simp⟩
    · exact ⟨a ++ c :: s, t, by simp⟩

theorem infix_intercalate_iff {p : List α} {c : α} (hc : c ∉ p) (hp : p ≠ [])
    (ls : List (List α)) : p <:+: [c].intercalate ls ↔ ∃ l ∈ ls, p <:+: l := by
  induction ls with
  | nil =>
    constructor
    · intro h
      exact absurd (List.infix_nil.mp h) hp
    · rintro ⟨l, hl, -⟩
      cases hl
  | cons x ls ih =>
    cases ls with
    | nil => simp [List.intercalate_singleton]
    | cons y ls =>
      have hjoin : [c].intercalate (x :: y :: ls) = x ++ c :: [c].intercalate (y :: ls) := by
        simp [List.intercalate_cons_cons]
      rw [hjoin, infix_append_cons_iff hc, ih]
      simp

end Separated
