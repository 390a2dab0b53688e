import RestClient.SharedPositions

/-!
# Progress of a `get` call

A compare-exchange fails only when another consumer has claimed a position since
the load before it, so each failed exchange is charged to a claim of its own. Claims
are bounded by the `add`s, and with them the iterations of the loop.
-/

namespace RestClient.Shared
open Machine
variable {ι Callback : Type} {n : RingSize} [DecidableEq ι]

/- The failed compare-exchanges of thread `c`. -/
def failures (c : ι) (log : List (Event ι Callback)) : ℕ :=
  log.countP fun
    | .exchangeFailed d => d = c
    | _ => false

/- The positions claimed by the other threads. -/
def claimsByOthers (c : ι) (log : List (Event ι Callback)) : ℕ :=
  log.countP fun
    | .claimed d _ => d ≠ c
    | _ => false

def isStepOf (c : ι) : Action ι Callback → Bool
  | .consumer d => d = c
  | _ => false

@[simp] theorem failures_append (c : ι) (log es : List (Event ι Callback)) :
    failures c (log ++ es) = failures c log + failures c es := List.countP_append

@[simp] theorem claimsByOthers_append (c : ι) (log es : List (Event ι Callback)) :
    claimsByOthers c (log ++ es) = claimsByOthers c log + claimsByOthers c es :=
  List.countP_append

theorem claimsByOthers_le_claims (c : ι) (log : List (Event ι Callback)) :
    claimsByOthers c log ≤ (claims log).length := by
  induction log with
  | nil => exact Nat.le_refl 0
  | cons e log ih =>
    have hcons : claimsByOthers c (e :: log) = claimsByOthers c [e] + claimsByOthers c log :=
      claimsByOthers_append c [e] log
    have hclaims : (claims (e :: log)).length = (claims [e]).length + (claims log).length := by
      rw [← List.length_append, ← claims_append]
      rfl
    have hone : claimsByOthers c [e] ≤ (claims [e]).length := by
      cases e with
      | claimed d p => exact List.countP_le_length
      | _ => exact Nat.zero_le _
    omega

/- The steps a call has taken in its present iteration. -/
def GetPc.rank : GetPc → ℕ
  | .called => 0
  | .looping => 1
  | .loaded _ => 2
  | .nonempty _ => 3
  | .claimed _ => 4
  | .idle => 5

/- The position a call will compare `mReadPos` with. -/
def GetPc.expects : GetPc → Option UInt64
  | .loaded r => some r
  | .nonempty r => some r
  | _ => none

/- What holds of a call of thread `c` while and after it runs. `as` and `log` are the
actions and events since it began. -/
structure Charged (c : ι) (s : State ι Callback n) (as : List (Action ι Callback))
    (log : List (Event ι Callback)) : Prop where
  charged : failures c log ≤ claimsByOthers c log
  outdated : ∀ r, (s.consumer c).expects = some r → s.buffer.mReadPos ≠ r →
    failures c log < claimsByOthers c log
  steps : as.countP (isStepOf c) ≤ 3 * failures c log + (s.consumer c).rank
  claimed : ∀ r, s.consumer c = .claimed r → .claimed c r ∈ log

/- A step of another thread: a claim moves `mReadPos`, but it is counted. -/
theorem charged_other {c : ι} {s s' : State ι Callback n} {as : List (Action ι Callback)}
    {log es : List (Event ι Callback)} {a : Action ι Callback} (h : Charged c s as log)
    (ha : isStepOf c a = false) (hc : s'.consumer c = s.consumer c) (hf : failures c es = 0)
    (hmove : s'.buffer.mReadPos = s.buffer.mReadPos ∨ 0 < claimsByOthers c es) :
    Charged c s' (as ++ [a]) (log ++ es) where
  charged := by
    have hle := h.charged
    rw [failures_append, claimsByOthers_append]
    omega
  outdated r hr hne := by
    have hle := h.charged
    rw [failures_append, claimsByOthers_append]
    rcases hmove with hsame | hclaim
    · have hlt := h.outdated r (hc ▸ hr) (hsame ▸ hne)
      omega
    · omega
  steps := by
    have hle := h.steps
    rw [failures_append, List.countP_append, List.countP_singleton, ha, hc, hf]
    simpa using hle
  claimed r hr := List.mem_append_left _ (h.claimed r (hc ▸ hr))

/- A step of the call itself that fails no exchange. -/
theorem charged_own {c : ι} {s s' : State ι Callback n} {as : List (Action ι Callback)}
    {log es : List (Event ι Callback)} (h : Charged c s as log)
    (hrank : (s.consumer c).rank < (s'.consumer c).rank) (hf : failures c es = 0)
    (hold : ∀ r, (s'.consumer c).expects = some r → s'.buffer.mReadPos ≠ r →
      (s.consumer c).expects = some r ∧ s'.buffer.mReadPos = s.buffer.mReadPos)
    (hclaimed : ∀ r, s'.consumer c = .claimed r → .claimed c r ∈ log ++ es) :
    Charged c s' (as ++ [.consumer c]) (log ++ es) where
  charged := by
    have hle := h.charged
    rw [failures_append, claimsByOthers_append]
    omega
  outdated r hr hne := by
    obtain ⟨hold, hsame⟩ := hold r hr hne
    have hlt := h.outdated r hold (hsame ▸ hne)
    rw [failures_append, claimsByOthers_append]
    omega
  steps := by
    have hle := h.steps
    have hown : isStepOf c (.consumer c : Action ι Callback) = true := decide_eq_true rfl
    rw [failures_append, List.countP_append, List.countP_singleton, if_pos hown]
    omega
  claimed := hclaimed

/- A failed exchange: the claim it is charged to has not been charged before. -/
theorem charged_fail {c : ι} {s : State ι Callback n} {as : List (Action ι Callback)}
    {log : List (Event ι Callback)} {r : UInt64} (h : Charged c s as log)
    (hc : s.consumer c = .nonempty r) (hne : s.buffer.mReadPos ≠ r) :
    Charged c { s with consumer := Function.update s.consumer c .looping }
      (as ++ [.consumer c]) (log ++ [.exchangeFailed c]) := by
  have hlt := h.outdated r (by rw [hc]; rfl) hne
  have hle := h.steps
  have hone : failures c ([.exchangeFailed c] : List (Event ι Callback)) = 1 := by
    simp [failures]
  have hown : isStepOf c (.consumer c : Action ι Callback) = true := decide_eq_true rfl
  rw [hc] at hle
  refine ⟨?_, ?_, ?_, ?_⟩
  · rw [failures_append, claimsByOthers_append, hone]
    omega
  · intro p hp
    simp [GetPc.expects] at hp
  · rw [failures_append, List.countP_append, List.countP_singleton, if_pos hown, hone]
    simp only [Function.update_self, GetPc.rank] at hle ⊢
    omega
  · intro p hp
    simp at hp

theorem ne_of_not_stepOf {c d : ι}
    (h : isStepOf c (.consumer d : Action ι Callback) = false) : c ≠ d :=
  fun heq => of_decide_eq_false h heq.symm

/- Another thread leaves the call where it is, and moves `mReadPos` only by a claim. -/
theorem frame_other {c : ι} {s s' : State ι Callback n} {es : List (Event ι Callback)}
    {a : Action ι Callback} (ha : a ≠ .callGet c) (hother : isStepOf c a = false)
    (hs : step s a = some (s', es)) :
    s'.consumer c = s.consumer c ∧ failures c es = 0 ∧
      (s'.buffer.mReadPos = s.buffer.mReadPos ∨ 0 < claimsByOthers c es) := by
  cases move_of_step hs with
  | callGet d hd =>
    have hne : c ≠ d := fun heq => ha (congrArg Action.callGet heq.symm)
    exact ⟨Function.update_of_ne hne _ _, rfl, .inl rfl⟩
  | claim d r hd he =>
    have hne := ne_of_not_stepOf hother
    refine ⟨Function.update_of_ne hne _ _, rfl, .inr ?_⟩
    simp [claimsByOthers, hne.symm]
  | exchangeFail d r hd he =>
    have hne := ne_of_not_stepOf hother
    refine ⟨Function.update_of_ne hne _ _, ?_, .inl rfl⟩
    simp [failures, hne.symm]
  | firstLoad d hd => exact ⟨Function.update_of_ne (ne_of_not_stepOf hother) _ _, rfl, .inl rfl⟩
  | loadRead d hd => exact ⟨Function.update_of_ne (ne_of_not_stepOf hother) _ _, rfl, .inl rfl⟩
  | testEmpty d r hd he =>
    exact ⟨Function.update_of_ne (ne_of_not_stepOf hother) _ _, rfl, .inl rfl⟩
  | testNonempty d r hd he =>
    exact ⟨Function.update_of_ne (ne_of_not_stepOf hother) _ _, rfl, .inl rfl⟩
  | copy d r hd => exact ⟨Function.update_of_ne (ne_of_not_stepOf hother) _ _, rfl, .inl rfl⟩
  | _ => exact ⟨rfl, rfl, .inl rfl⟩

theorem eq_of_stepOf {c : ι} {a : Action ι Callback} (h : isStepOf c a = true) :
    a = .consumer c := by
  cases a with
  | consumer d => rw [of_decide_eq_true h]
  | _ => cases h

theorem charged_step {c : ι} {s s' : State ι Callback n} {as : List (Action ι Callback)}
    {log es : List (Event ι Callback)} {a : Action ι Callback} (h : Charged c s as log)
    (ha : a ≠ .callGet c) (hs : step s a = some (s', es)) :
    Charged c s' (as ++ [a]) (log ++ es) := by
  cases hown : isStepOf c a with
  | false =>
    obtain ⟨hc, hf, hmove⟩ := frame_other ha hown hs
    exact charged_other h hown hc hf hmove
  | true =>
    cases eq_of_stepOf hown
    cases move_of_step hs with
    | exchangeFail _ r hd he => exact charged_fail h hd he
    | firstLoad _ hd => refine charged_own h ?_ rfl ?_ ?_ <;> simp [hd, GetPc.rank, GetPc.expects]
    | loadRead _ hd => refine charged_own h ?_ rfl ?_ ?_ <;> simp [hd, GetPc.rank, GetPc.expects]
    | testEmpty _ r hd he =>
      refine charged_own h ?_ rfl ?_ ?_ <;> simp [hd, GetPc.rank, GetPc.expects]
    | testNonempty _ r hd he =>
      refine charged_own h ?_ rfl ?_ ?_ <;> simp [hd, GetPc.rank, GetPc.expects]
    | claim _ r hd he => refine charged_own h ?_ rfl ?_ ?_ <;> simp [hd, GetPc.rank, GetPc.expects]
    | copy _ r hd => refine charged_own h ?_ rfl ?_ ?_ <;> simp [hd, GetPc.rank, GetPc.expects]

/- A call that has just begun. -/
theorem charged_begin {c : ι} {s s' : State ι Callback n} {es : List (Event ι Callback)}
    (hs : step s (.callGet c) = some (s', es)) : Charged c s' [] [] := by
  cases move_of_step hs with
  | callGet d hd => refine ⟨?_, ?_, ?_, ?_⟩ <;> simp [failures, GetPc.rank, GetPc.expects]

theorem charged_of_run {c : ι} {s₀ s₁ s : State ι Callback n} {as : List (Action ι Callback)}
    {es log : List (Event ι Callback)} (hcall : step s₀ (.callGet c) = some (s₁, es))
    (h : Run step s₁ as s log) (hsame : .callGet c ∉ as) : Charged c s as log := by
  induction h with
  | nil => exact charged_begin hcall
  | @snoc as s log a s' es' hr hs ih =>
    have hearlier : .callGet c ∉ as := fun hmem => hsame (List.mem_append_left _ hmem)
    have hlast : a ≠ .callGet c := by
      intro heq
      exact hsame (List.mem_append_right _ (List.mem_singleton.mpr heq.symm))
    exact charged_step (ih hearlier) hlast hs

/- Never more claims than `add`s. -/
theorem claims_le_published [Inhabited Callback] {as : List (Action ι Callback)}
    {s : State ι Callback n} {log : List (Event ι Callback)} (h : Run step initial as s log) :
    (claims log).length ≤ (published log).length := (inv_of_run h).positions.le

/- A call ends with `nullopt` or with the entry of a position it has claimed. -/
def Ended (c : ι) (log es : List (Event ι Callback)) : Prop :=
  .empty c ∈ es ∨ ∃ p v, .claimed c p ∈ log ∧ .returned c p v ∈ es

theorem ended_of_idle {c : ι} {s s' : State ι Callback n} {as : List (Action ι Callback)}
    {log es : List (Event ι Callback)} {a : Action ι Callback} (h : Charged c s as log)
    (ha : a ≠ .callGet c) (hs : step s a = some (s', es)) (hbusy : s.consumer c ≠ .idle)
    (hidle : s'.consumer c = .idle) : Ended c log es := by
  cases hown : isStepOf c a with
  | false =>
    rw [(frame_other ha hown hs).1] at hidle
    exact absurd hidle hbusy
  | true =>
    cases eq_of_stepOf hown
    cases move_of_step hs with
    | testEmpty _ r hd he => exact .inl (List.mem_singleton_self _)
    | copy _ r hd => exact .inr ⟨r, _, h.claimed r hd, List.mem_singleton_self _⟩
    | _ => simp at hidle

/- A call cannot begin while one is running. -/
theorem busy_ne_callGet {c : ι} {s s' : State ι Callback n} {es : List (Event ι Callback)}
    {a : Action ι Callback} (hs : step s a = some (s', es)) (hbusy : s.consumer c ≠ .idle) :
    a ≠ .callGet c := by
  rintro rfl
  cases move_of_step hs with
  | callGet _ hd => exact hbusy hd

theorem called_of_callGet {c : ι} {s s' : State ι Callback n} {es : List (Event ι Callback)}
    (hs : step s (.callGet c) = some (s', es)) : s'.consumer c = .called := by
  cases move_of_step hs with
  | callGet _ hd => exact Function.update_self ..

theorem published_of_not_producer {s s' : State ι Callback n} {es : List (Event ι Callback)}
    {a : Action ι Callback} (ha : a ≠ .producer) (hs : step s a = some (s', es)) :
    published es = [] := by
  cases move_of_step hs with
  | publish v w hp => exact absurd rfl ha
  | _ => rfl

/-! ### Runs in which a call takes steps for ever -/

variable [Inhabited Callback]

/- The call of thread `c` that begins at instant `i₀` is still running at instant `j`. -/
def Running (r : InfiniteRun step (initial : State ι Callback n)) (c : ι) (i₀ j : ℕ) : Prop :=
  ∀ k, i₀ < k → k ≤ j → (r.state k).consumer c ≠ .idle

theorem charged_segment {r : InfiniteRun step (initial : State ι Callback n)} {c : ι} {i₀ : ℕ}
    (hcall : r.action i₀ = .callGet c) (k : ℕ) (hrun : Running r c i₀ (i₀ + k)) :
    Charged c (r.state (i₀ + 1 + k)) (r.actionsFrom (i₀ + 1) k) (r.logFrom (i₀ + 1) k) := by
  refine charged_of_run (hcall ▸ r.steps i₀) (r.segment (i₀ + 1) k) ?_
  intro hmem
  obtain ⟨m, hm, ha⟩ := List.mem_map.mp hmem
  have hlt := List.mem_range.mp hm
  have hbusy := hrun (i₀ + 1 + m) (by omega) (by omega)
  exact busy_ne_callGet (r.steps (i₀ + 1 + m)) hbusy ha

/- With no publication after instant `N`, the publications are those before it. -/
theorem published_bounded {r : InfiniteRun step (initial : State ι Callback n)} {N : ℕ}
    (hN : ∀ i, N ≤ i → published (r.events i) = []) (k : ℕ) :
    (published (r.logFrom 0 k)).length ≤ (published (r.logFrom 0 N)).length := by
  have hlate : ∀ d, published (r.logFrom N d) = [] := by
    intro d
    induction d with
    | zero => rfl
    | succ d ih =>
      rw [InfiniteRun.logFrom_succ, published_append, ih, hN (N + d) (Nat.le_add_right N d)]
      rfl
  rcases Nat.le_total k N with hle | hle
  · obtain ⟨d, rfl⟩ := Nat.exists_eq_add_of_le hle
    rw [InfiniteRun.logFrom_add, published_append, List.length_append]
    exact Nat.le_add_right _ _
  · obtain ⟨d, rfl⟩ := Nat.exists_eq_add_of_le hle
    rw [InfiniteRun.logFrom_add, published_append, Nat.zero_add, hlate, List.append_nil]

/- The steps of a running call are bounded by the number of `add`s. -/
theorem steps_le_published {r : InfiniteRun step (initial : State ι Callback n)} {c : ι} {i₀ : ℕ}
    (hcall : r.action i₀ = .callGet c) (k : ℕ) (hrun : Running r c i₀ (i₀ + k)) :
    (r.actionsFrom (i₀ + 1) k).countP (isStepOf c) ≤
      3 * (published (r.logFrom 0 (i₀ + 1 + k))).length + 5 := by
  have hcharged := charged_segment hcall k hrun
  have hfailures := hcharged.charged
  have hsteps := hcharged.steps
  have hothers := claimsByOthers_le_claims c (r.logFrom (i₀ + 1) k)
  have hrank : ((r.state (i₀ + 1 + k)).consumer c).rank ≤ 5 := by
    cases (r.state (i₀ + 1 + k)).consumer c <;> simp [GetPc.rank]
  have hclaims : (claims (r.logFrom (i₀ + 1) k)).length ≤
      (claims (r.logFrom 0 (i₀ + 1 + k))).length := by
    rw [InfiniteRun.logFrom_add, claims_append, List.length_append, Nat.zero_add]
    exact Nat.le_add_left _ _
  have hstart : Run step initial (r.actionsFrom 0 (i₀ + 1 + k)) (r.state (i₀ + 1 + k))
      (r.logFrom 0 (i₀ + 1 + k)) := by
    have hsegment := r.segment 0 (i₀ + 1 + k)
    rw [r.start, Nat.zero_add] at hsegment
    exact hsegment
  have hpublished := claims_le_published hstart
  omega

theorem not_running_forever {r : InfiniteRun step (initial : State ι Callback n)} {c : ι} {i₀ : ℕ}
    (hadds : ∃ N, ∀ i, N ≤ i → published (r.events i) = []) (hcall : r.action i₀ = .callGet c)
    (hfair : ∀ j, Running r c i₀ j → ∃ k, j ≤ k ∧ r.action k = .consumer c) :
    ∃ j, ¬ Running r c i₀ j := by
  by_contra hnever
  have hrun : ∀ j, Running r c i₀ j := fun j => by_contra fun h => hnever ⟨j, h⟩
  obtain ⟨N, hN⟩ := hadds
  have hagain : ∀ j, i₀ + 1 ≤ j → ∃ k, j ≤ k ∧ isStepOf c (r.action k) = true := by
    intro j _
    obtain ⟨k, hk, ha⟩ := hfair j (hrun j)
    exact ⟨k, hk, by rw [ha]; exact decide_eq_true rfl⟩
  obtain ⟨k, hk⟩ := r.unbounded_count (isStepOf c) (i₀ + 1) hagain
    (3 * (published (r.logFrom 0 N)).length + 6)
  have hsteps := steps_le_published hcall k (hrun (i₀ + k))
  have hbound := published_bounded hN (i₀ + 1 + k)
  omega

/- The first instant at which a call that does not run for ever has ended. -/
theorem first_idle {r : InfiniteRun step (initial : State ι Callback n)} {c : ι} {i₀ : ℕ}
    (hcall : r.action i₀ = .callGet c) (hstop : ∃ j, ¬ Running r c i₀ j) :
    ∃ k, Running r c i₀ (i₀ + 1 + k) ∧ (r.state (i₀ + 1 + k + 1)).consumer c = .idle := by
  classical
  obtain ⟨j, hj, hleast⟩ := Nat.findX hstop
  have hbegun : (r.state (i₀ + 1)).consumer c = .called := called_of_callGet (hcall ▸ r.steps i₀)
  have hearlier : ∀ m, m < j → Running r c i₀ m := fun m hm => not_not.mp (hleast m hm)
  have hlast : i₀ < j ∧ (r.state j).consumer c = .idle := by
    simp only [Running, not_forall, not_not] at hj
    obtain ⟨m, hm, hle, hidle⟩ := hj
    rcases Nat.lt_or_eq_of_le hle with hlt | rfl
    · exact absurd hidle (hearlier m hlt m hm (Nat.le_refl m))
    · exact ⟨hm, hidle⟩
  have hlate : i₀ + 1 < j := by
    rcases Nat.lt_or_eq_of_le hlast.1 with hlt | heq
    · exact hlt
    · have hidle := hlast.2
      rw [← heq, hbegun] at hidle
      cases hidle
  obtain ⟨k, rfl⟩ : ∃ k, j = i₀ + 1 + k + 1 := ⟨j - (i₀ + 2), by omega⟩
  exact ⟨k, hearlier _ (Nat.lt_succ_self _), hlast.2⟩

/-- Under every interleaving a call fails at most as many exchanges as the others claim
positions since it began; and in a run with finitely many `add`s a call that keeps
taking steps ends, with `nullopt` or with the entry of a position it claimed. -/
theorem get_lock_free (n : RingSize) (c : ι) :
    (∀ (as₀ : List (Action ι Callback)) (s₀ : State ι Callback n) (log₀ : List (Event ι Callback))
        (s₁ : State ι Callback n) (es : List (Event ι Callback)) (as : List (Action ι Callback))
        (s : State ι Callback n) (log : List (Event ι Callback)),
      Run step initial as₀ s₀ log₀ → step s₀ (.callGet c) = some (s₁, es) →
      Run step s₁ as s log → .callGet c ∉ as → failures c log ≤ claimsByOthers c log) ∧
    ∀ (r : InfiniteRun step (initial : State ι Callback n)) (i₀ : ℕ),
      (∃ N, ∀ i, N ≤ i → published (r.events i) = []) → r.action i₀ = .callGet c →
      (∀ j, Running r c i₀ j → ∃ k, j ≤ k ∧ r.action k = .consumer c) →
      ∃ k, Running r c i₀ (i₀ + 1 + k) ∧ (r.state (i₀ + 1 + k + 1)).consumer c = .idle ∧
        Ended c (r.logFrom (i₀ + 1) k) (r.events (i₀ + 1 + k)) := by
  constructor
  · intro as₀ s₀ log₀ s₁ es as s log _ hcall hrun hsame
    exact (charged_of_run hcall hrun hsame).charged
  · intro r i₀ hadds hcall hfair
    obtain ⟨k, hrun, hidle⟩ := first_idle hcall (not_running_forever hadds hcall hfair)
    have hbusy := hrun (i₀ + 1 + k) (by omega) (Nat.le_refl _)
    have hstep := r.steps (i₀ + 1 + k)
    have hcharged := charged_segment hcall k fun m hm hle => hrun m hm (by omega)
    exact ⟨k, hrun, hidle,
      ended_of_idle hcharged (busy_ne_callGet hstep hbusy) hstep hbusy hidle⟩

/- The next action of a consumer that calls `get` again and again. -/
def poll (s : State Unit ℕ .smallest) : Action Unit ℕ :=
  if s.consumer () = .idle then .callGet () else .consumer ()

theorem poll_enabled (s : State Unit ℕ .smallest) : (step s (poll s)).isSome := by
  unfold poll
  by_cases hidle : s.consumer () = .idle
  · simp [hidle, step]
  · rw [if_neg hidle, step, Option.isSome_map]
    cases hc : s.consumer () with
    | idle => exact absurd hc hidle
    | loaded r =>
      unfold getStep
      dsimp only
      split <;> rfl
    | nonempty r =>
      unfold getStep
      dsimp only
      split <;> rfl
    | _ => rfl

theorem poll_ne_producer (s : State Unit ℕ .smallest) : poll s ≠ .producer := by
  unfold poll
  split <;> exact fun h => by cases h

theorem poll_busy {s : State Unit ℕ .smallest} (h : s.consumer () ≠ .idle) :
    poll s = .consumer () := if_neg h

/- One entry and two consumers: the exchange of the first call fails once, for the claim of
the second. And the run of `poll` without any `add`: its first call ends with `nullopt`. -/
theorem get_lock_free_polling :
    (∃ log : List (Event Bool ℕ), failures false log = 1 ∧
      failures false log ≤ claimsByOthers false log) ∧
    ∃ (r : InfiniteRun step (initial : State Unit ℕ .smallest)) (k : ℕ),
      r.action 0 = .callGet () ∧ (r.state (0 + 1 + k + 1)).consumer () = .idle ∧
      Ended () (r.logFrom (0 + 1) k) (r.events (0 + 1 + k)) := by
  let added : List (Action Bool ℕ) :=
    [.callAdd (default, 7), .producer, .producer, .producer, .producer]
  let overtaken : List (Action Bool ℕ) :=
    [.consumer false, .consumer false, .callGet true, .consumer true, .consumer true,
      .consumer true, .consumer true, .consumer false, .consumer false]
  obtain ⟨s₀, log₀, s₁, es, s, log, hadded, hbegun, hovertaken, hfailed⟩ :=
    run_of_observed_around step (initial : State Bool ℕ .smallest) added overtaken
      (.callGet false) (fun _ _ r => failures false r.2) (show _ = some 1 by decide +kernel)
  have hcharged := (get_lock_free .smallest false).1 added s₀ log₀ s₁ es overtaken s log
    hadded hbegun hovertaken (by simp [overtaken])
  refine ⟨⟨log, hfailed, hcharged⟩, ?_⟩
  let r := InfiniteRun.ofStrategy step (initial : State Unit ℕ .smallest) poll poll_enabled
  have hquiet : ∀ i, 0 ≤ i → published (r.events i) = [] :=
    fun i _ => published_of_not_producer (poll_ne_producer (r.state i)) (r.steps i)
  have hfair : ∀ j, Running r () 0 j → ∃ k, j ≤ k ∧ r.action k = .consumer () := by
    intro j hrun
    cases j with
    | zero =>
      have hbegun : (r.state 1).consumer () = .called := called_of_callGet (r.steps 0)
      have hbusy : (r.state 1).consumer () ≠ .idle := by
        rw [hbegun]
        decide
      exact ⟨1, Nat.zero_le 1, poll_busy hbusy⟩
    | succ j => exact ⟨j + 1, Nat.le_refl _, poll_busy (hrun (j + 1) (by omega) (Nat.le_refl _))⟩
  obtain ⟨k, -, hidle, hended⟩ := (get_lock_free .smallest ()).2 r 0 ⟨0, hquiet⟩ rfl hfair
  exact ⟨r, k, rfl, hidle, hended⟩

end RestClient.Shared
