import Mathlib.Data.List.Infix

/-!
# Runs of a machine with outputs

A machine is a partial step function. The action carries every choice of the
environment, so one action has at most one successor; `none` is an action that
is not enabled. Each step emits a list of events and a run collects them, so a
property of a run is a property of its last state and of its log. Nothing here
names a particular machine.
-/

namespace Machine
variable {σ τ α β ε : Type*}

abbrev Step (σ α ε : Type*) := σ → α → Option (σ × List ε)

/-- Runs from `s₀`: the actions taken, the state reached, the events emitted. -/
inductive Run (step : Step σ α ε) (s₀ : σ) : List α → σ → List ε → Prop
  | nil : Run step s₀ [] s₀ []
  | snoc {as : List α} {s : σ} {log : List ε} {a : α} {s' : σ} {es : List ε} :
      Run step s₀ as s log → step s a = some (s', es) →
      Run step s₀ (as ++ [a]) s' (log ++ es)

/-! ### Execution -/

/-- Executes a list of actions; `none` when one of them is not enabled. -/
def exec (step : Step σ α ε) : σ → List α → Option (σ × List ε)
  | s, [] => some (s, [])
  | s, a :: as =>
    match step s a with
    | none => none
    | some (s', es) => (exec step s' as).map fun r => (r.1, es ++ r.2)

theorem Run.append {step : Step σ α ε} {s₀ s s' : σ} {as bs : List α} {log log' : List ε}
    (h : Run step s₀ as s log) (h' : Run step s bs s' log') :
    Run step s₀ (as ++ bs) s' (log ++ log') := by
  induction h' with
  | nil => simpa using h
  | snoc _ hs ih =>
    rw [← List.append_assoc, ← List.append_assoc]
    exact ih.snoc hs

theorem Run.single {step : Step σ α ε} {s s' : σ} {a : α} {es : List ε}
    (h : step s a = some (s', es)) : Run step s [a] s' es := by
  have hnil : Run step s [] s [] := .nil
  simpa using hnil.snoc h

theorem run_of_exec {step : Step σ α ε} {s s' : σ} {as : List α} {log : List ε}
    (h : exec step s as = some (s', log)) : Run step s as s' log := by
  induction as generalizing s log with
  | nil =>
    cases h
    exact .nil
  | cons a as ih =>
    simp only [exec] at h
    split at h
    · contradiction
    · rename_i s₁ es hs
      obtain ⟨⟨s₂, log₂⟩, h₂, he⟩ := Option.map_eq_some_iff.mp h
      cases he
      exact (Run.single hs).append (ih h₂)

/-- A computed observation of an execution is an observation of a run. -/
theorem run_of_observed {γ : Type*} (step : Step σ α ε) (s : σ) (as : List α)
    (f : σ × List ε → γ) {v : γ} (h : (exec step s as).map f = some v) :
    ∃ s' log, Run step s as s' log ∧ f (s', log) = v := by
  obtain ⟨⟨s', log⟩, he, hf⟩ := Option.map_eq_some_iff.mp h
  exact ⟨s', log, run_of_exec he, hf⟩

/-- The same for an execution observed before and after one of its steps and at its end. -/
theorem run_of_observed_around {γ : Type*} (step : Step σ α ε) (s : σ) (as bs : List α) (a : α)
    (f : σ × List ε → σ × List ε → σ × List ε → γ) {v : γ}
    (h : ((exec step s as).bind fun r => (step r.1 a).bind fun r' =>
      (exec step r'.1 bs).map fun r'' => f r r' r'') = some v) :
    ∃ s₁ log s₂ es s₃ log', Run step s as s₁ log ∧ step s₁ a = some (s₂, es) ∧
      Run step s₂ bs s₃ log' ∧ f (s₁, log) (s₂, es) (s₃, log') = v := by
  obtain ⟨⟨s₁, log⟩, he, h⟩ := Option.bind_eq_some_iff.mp h
  obtain ⟨⟨s₂, es⟩, hs, h⟩ := Option.bind_eq_some_iff.mp h
  obtain ⟨⟨s₃, log'⟩, he', hf⟩ := Option.map_eq_some_iff.mp h
  exact ⟨s₁, log, s₂, es, s₃, log', run_of_exec he, hs, run_of_exec he', hf⟩

/-! ### Invariants -/

/-- What holds at the start and is kept by every step holds after every run. -/
theorem Run.invariant {step : Step σ α ε} {s₀ : σ} (P : σ → List ε → Prop) (h₀ : P s₀ [])
    (hstep : ∀ s log a s' es, P s log → step s a = some (s', es) → P s' (log ++ es))
    {as : List α} {s : σ} {log : List ε} (h : Run step s₀ as s log) : P s log := by
  induction h with
  | nil => exact h₀
  | snoc _ hs ih => exact hstep _ _ _ _ _ ih hs

/-- `P` holds in every state reached along `as`, the first and the last included. -/
def Always (step : Step σ α ε) (s₀ : σ) (as : List α) (P : σ → List ε → Prop) : Prop :=
  ∀ pre s log, pre <+: as → Run step s₀ pre s log → P s log

/-- `ok` holds of every step taken along `as`, judged on the state before it. -/
def EachStep (step : Step σ α ε) (s₀ : σ) (as : List α) (ok : σ → List ε → α → Prop) : Prop :=
  ∀ pre a s log, pre ++ [a] <+: as → Run step s₀ pre s log → (step s a).isSome → ok s log a

theorem Always.last {step : Step σ α ε} {s₀ s : σ} {as : List α} {log : List ε}
    {P : σ → List ε → Prop} (h : Always step s₀ as P) (hr : Run step s₀ as s log) : P s log :=
  h as s log (List.prefix_refl as) hr

theorem always_of_run {step : Step σ α ε} {s₀ : σ} {P : σ → List ε → Prop}
    (h : ∀ as s log, Run step s₀ as s log → P s log) (as : List α) : Always step s₀ as P :=
  fun pre s log _ hr => h pre s log hr

/-- A conditional invariant: `P` survives every step that is `ok`. `I` is what is
known of every state along `as`. -/
theorem always_of_eachStep {step : Step σ α ε} {s₀ : σ} {as : List α}
    (I P : σ → List ε → Prop) (ok : σ → List ε → α → Prop) (hI : Always step s₀ as I)
    (h₀ : P s₀ [])
    (hkeep : ∀ s log a s' es, I s log → I s' (log ++ es) → P s log → ok s log a →
      step s a = some (s', es) → P s' (log ++ es))
    (h : EachStep step s₀ as ok) : Always step s₀ as P := by
  intro pre s log hp hr
  induction hr with
  | nil => exact h₀
  | @snoc as' s' log' a _ _ hr hs ih =>
    have hprev : as' <+: as := (List.prefix_append as' [a]).trans hp
    have hok : ok s' log' a := h as' a s' log' hp hr (by rw [hs]; rfl)
    exact hkeep _ _ _ _ _ (hI _ _ _ hprev hr) (hI _ _ _ hp (hr.snoc hs)) (ih hprev) hok hs

/-- When a step that is not `ok` destroys `P`, the condition is exact. -/
theorem always_iff_eachStep {step : Step σ α ε} {s₀ : σ} {as : List α}
    (I P : σ → List ε → Prop) (ok : σ → List ε → α → Prop) (hI : Always step s₀ as I)
    (h₀ : P s₀ [])
    (hkeep : ∀ s log a s' es, I s log → I s' (log ++ es) → P s log → ok s log a →
      step s a = some (s', es) → P s' (log ++ es))
    (hbreak : ∀ s log a s' es, I s log → I s' (log ++ es) → P s log →
      step s a = some (s', es) → P s' (log ++ es) → ok s log a) :
    Always step s₀ as P ↔ EachStep step s₀ as ok := by
  constructor
  · intro hP pre a s log hp hr hs
    obtain ⟨⟨s', es⟩, hs⟩ := Option.isSome_iff_exists.mp hs
    have hprev : pre <+: as := (List.prefix_append pre [a]).trans hp
    have hnext := hr.snoc hs
    exact hbreak s log a s' es (hI _ _ _ hprev hr) (hI _ _ _ hp hnext) (hP _ _ _ hprev hr) hs
      (hP _ _ _ hp hnext)
  · exact always_of_eachStep I P ok hI h₀ hkeep

theorem Run.nil_inv {step : Step σ α ε} {s₀ s : σ} {log : List ε} (h : Run step s₀ [] s log) :
    s = s₀ ∧ log = [] := by
  generalize hl : ([] : List α) = l at h
  cases h with
  | nil => exact ⟨rfl, rfl⟩
  | snoc => simp at hl

theorem Run.cons_inv {step : Step σ α ε} {s₀ s : σ} {a : α} {as : List α} {log : List ε}
    (h : Run step s₀ (a :: as) s log) :
    ∃ s₁ es rest, step s₀ a = some (s₁, es) ∧ Run step s₁ as s rest ∧ log = es ++ rest := by
  generalize hl : a :: as = l at h
  induction h generalizing as with
  | nil => contradiction
  | @snoc as' s log b s' es hr hs ih =>
    cases as' with
    | nil =>
      obtain ⟨rfl, rfl⟩ := hr.nil_inv
      obtain ⟨rfl, rfl⟩ := List.cons.inj hl
      exact ⟨s', es, [], hs, .nil, by simp⟩
    | cons c as' =>
      obtain ⟨rfl, rfl⟩ := List.cons.inj hl
      obtain ⟨s₁, es₁, rest, h₁, hrest, rfl⟩ := ih rfl
      exact ⟨s₁, es₁, rest ++ es, h₁, hrest.snoc hs, by simp⟩

/-! ### Deciding a property of one execution -/

/-- Evaluates a condition on the states of an execution. -/
def checkAlways (step : Step σ α ε) (P : σ → List ε → Bool) : σ → List ε → List α → Bool
  | s, log, [] => P s log
  | s, log, a :: as =>
    P s log &&
      match step s a with
      | none => true
      | some (s', es) => checkAlways step P s' (log ++ es) as

/-- Evaluates a condition on the steps of an execution. -/
def checkEach (step : Step σ α ε) (ok : σ → α → Bool) : σ → List α → Bool
  | _, [] => true
  | s, a :: as =>
    match step s a with
    | none => true
    | some (s', _) => ok s a && checkEach step ok s' as

theorem checkAlways_head {step : Step σ α ε} {P : σ → List ε → Bool} {s : σ} {log : List ε}
    {as : List α} (h : checkAlways step P s log as = true) : P s log = true := by
  cases as with
  | nil => exact h
  | cons a as =>
    unfold checkAlways at h
    exact (Bool.and_eq_true_iff.mp h).1

theorem always_of_check {step : Step σ α ε} {P : σ → List ε → Bool} {s₀ : σ} {as : List α}
    (h : checkAlways step P s₀ [] as = true) :
    Always step s₀ as fun s log => P s log = true := by
  suffices hfrom : ∀ pre as s log₀ s' log, checkAlways step P s log₀ as = true → pre <+: as →
      Run step s pre s' log → P s' (log₀ ++ log) = true by
    intro pre s log hp hr
    exact hfrom pre as s₀ [] s log h hp hr
  intro pre
  induction pre with
  | nil =>
    intro as s log₀ s' log h _ hr
    obtain ⟨rfl, rfl⟩ := hr.nil_inv
    rw [List.append_nil]
    exact checkAlways_head h
  | cons a pre ih =>
    intro as s log₀ s' log h hp hr
    obtain ⟨rest, rfl⟩ := hp
    obtain ⟨s₁, es, log', h₁, hr', rfl⟩ := hr.cons_inv
    simp only [List.cons_append, checkAlways, h₁, Bool.and_eq_true] at h
    rw [← List.append_assoc]
    exact ih _ s₁ (log₀ ++ es) s' log' h.2 ⟨rest, rfl⟩ hr'

theorem eachStep_of_check {step : Step σ α ε} {ok : σ → α → Bool} {s₀ : σ} {as : List α}
    (h : checkEach step ok s₀ as = true) : EachStep step s₀ as fun s _ a => ok s a = true := by
  intro pre
  induction pre generalizing s₀ as with
  | nil =>
    intro a s log hp hr hs
    obtain ⟨rest, rfl⟩ := hp
    obtain ⟨rfl, rfl⟩ := hr.nil_inv
    obtain ⟨r, hs⟩ := Option.isSome_iff_exists.mp hs
    simp only [List.nil_append, List.cons_append, checkEach, hs, Bool.and_eq_true] at h
    exact h.1
  | cons b pre ih =>
    intro a s log hp hr hs
    obtain ⟨rest, rfl⟩ := hp
    obtain ⟨s₁, es, log', h₁, hr', -⟩ := hr.cons_inv
    simp only [List.cons_append, checkEach, h₁, Bool.and_eq_true] at h
    exact ih h.2 a s log' ⟨rest, by simp⟩ hr' hs

/-! ### Simulation -/

/-- Lockstep simulation up to renaming of actions and events. `G` restricts the
logs considered and must be inherited by shorter logs. -/
theorem Run.simulate {ε' : Type*} {step : Step σ α ε} {step' : Step τ β ε'} {s₀ : σ} {t₀ : τ}
    (act : α → β) (ev : ε → ε') (G : List ε → Prop) (R : σ → List ε → τ → Prop)
    (hG : ∀ log es, G (log ++ es) → G log) (h₀ : R s₀ [] t₀)
    (hstep : ∀ s log t a s' es, R s log t → G (log ++ es) → step s a = some (s', es) →
      ∃ t', step' t (act a) = some (t', es.map ev) ∧ R s' (log ++ es) t')
    {as : List α} {s : σ} {log : List ε} (h : Run step s₀ as s log) (hg : G log) :
    ∃ t, Run step' t₀ (as.map act) t (log.map ev) ∧ R s log t := by
  induction h with
  | nil => exact ⟨t₀, .nil, h₀⟩
  | snoc _ hs ih =>
    obtain ⟨t, ht, hR⟩ := ih (hG _ _ hg)
    obtain ⟨t', hs', hR'⟩ := hstep _ _ _ _ _ _ hR hg hs
    refine ⟨t', ?_, hR'⟩
    simpa only [List.map_append, List.map_cons, List.map_nil] using ht.snoc hs'

/-- Simulation with stuttering: each step is matched by a run, possibly empty, that
emits what the step shows. -/
theorem Run.simulate_shown {ε' : Type*} {step : Step σ α ε} {step' : Step τ β ε'} {s₀ : σ}
    {t₀ : τ} (shown : ε → Option ε') (R : σ → List ε → τ → Prop) (h₀ : R s₀ [] t₀)
    (hstep : ∀ s log t a s' es, R s log t → step s a = some (s', es) →
      ∃ bs t', Run step' t bs t' (es.filterMap shown) ∧ R s' (log ++ es) t')
    {as : List α} {s : σ} {log : List ε} (h : Run step s₀ as s log) :
    ∃ bs t, Run step' t₀ bs t (log.filterMap shown) ∧ R s log t := by
  induction h with
  | nil => exact ⟨[], t₀, .nil, h₀⟩
  | snoc _ hs ih =>
    obtain ⟨bs, t, ht, hR⟩ := ih
    obtain ⟨bs', t', ht', hR'⟩ := hstep _ _ _ _ _ _ hR hs
    refine ⟨bs ++ bs', t', ?_, hR'⟩
    rw [List.filterMap_append]
    exact ht.append ht'

/-! ### Runs that never end -/

structure InfiniteRun (step : Step σ α ε) (s₀ : σ) where
  state : ℕ → σ
  action : ℕ → α
  events : ℕ → List ε
  start : state 0 = s₀
  steps : ∀ i, step (state i) (action i) = some (state (i + 1), events i)

namespace InfiniteRun
variable {step : Step σ α ε} {s₀ : σ} (r : InfiniteRun step s₀)

/-- The `k` actions taken from instant `i` on. -/
def actionsFrom (i k : ℕ) : List α := (List.range k).map fun m => r.action (i + m)

/-- The events emitted by these actions. -/
def logFrom (i k : ℕ) : List ε := (List.range k).flatMap fun m => r.events (i + m)

theorem actionsFrom_succ (i k : ℕ) :
    r.actionsFrom i (k + 1) = r.actionsFrom i k ++ [r.action (i + k)] := by
  rw [actionsFrom, List.range_succ, List.map_append]
  rfl

theorem logFrom_succ (i k : ℕ) : r.logFrom i (k + 1) = r.logFrom i k ++ r.events (i + k) := by
  simp [logFrom, List.range_succ, List.flatMap_append]

theorem actionsFrom_add (i k d : ℕ) :
    r.actionsFrom i (k + d) = r.actionsFrom i k ++ r.actionsFrom (i + k) d := by
  simp [actionsFrom, List.range_add, Nat.add_assoc]

theorem logFrom_add (i k d : ℕ) :
    r.logFrom i (k + d) = r.logFrom i k ++ r.logFrom (i + k) d := by
  simp [logFrom, List.range_add, List.flatMap_append, List.flatMap_map, Nat.add_assoc]

/-- Every segment is a run. -/
theorem segment (i k : ℕ) :
    Run step (r.state i) (r.actionsFrom i k) (r.state (i + k)) (r.logFrom i k) := by
  induction k with
  | zero => exact .nil
  | succ k ih =>
    rw [actionsFrom_succ, logFrom_succ]
    exact ih.snoc (r.steps (i + k))

/-- A strategy that always chooses an enabled action runs for ever. -/
def ofStrategy (step : Step σ α ε) (s₀ : σ) (choose : σ → α)
    (enabled : ∀ s, (step s (choose s)).isSome) : InfiniteRun step s₀ where
  state i := (fun s => ((step s (choose s)).get (enabled s)).1)^[i] s₀
  action i := choose ((fun s => ((step s (choose s)).get (enabled s)).1)^[i] s₀)
  events i :=
    ((step _ _).get (enabled ((fun s => ((step s (choose s)).get (enabled s)).1)^[i] s₀))).2
  start := rfl
  steps i := by
    rw [Function.iterate_succ_apply']
    exact (Option.some_get _).symm

/-- What is done again and again is done any number of times. -/
theorem unbounded_count (p : α → Bool) (i : ℕ)
    (h : ∀ j, i ≤ j → ∃ k, j ≤ k ∧ p (r.action k) = true) (n : ℕ) :
    ∃ k, n ≤ (r.actionsFrom i k).countP p := by
  induction n with
  | zero => exact ⟨0, Nat.zero_le _⟩
  | succ n ih =>
    obtain ⟨k, hk⟩ := ih
    obtain ⟨m, hm, hp⟩ := h (i + k) (Nat.le_add_right i k)
    have hgrow : (r.actionsFrom i k).countP p ≤ (r.actionsFrom i (m - i)).countP p := by
      obtain ⟨d, hd⟩ := Nat.exists_eq_add_of_le (show k ≤ m - i by omega)
      rw [hd, actionsFrom_add, List.countP_append]
      exact Nat.le_add_right _ _
    have hlast : i + (m - i) = m := by omega
    refine ⟨m - i + 1, ?_⟩
    rw [actionsFrom_succ, hlast, List.countP_append, List.countP_singleton, if_pos hp]
    omega

end InfiniteRun

end Machine
