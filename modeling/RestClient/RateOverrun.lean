import RestClient.RateLimit

/-!
# The rate limit is exceeded

With any subscription at all the two loops together send three requests a second. Only
without one is the limit kept.
-/

namespace RestClient.Program
open Machine Pacing
variable {HandlerType T : Type} {p : Shipped HandlerType} [CommRing T] [LinearOrder T]

/-! ### Runs of the two loops -/

/- Some run of the shipped client leads from one state to the other; `ts` are the
instants of the requests it sends. -/
def Sends (s s' : State p T) (ts : List T) : Prop :=
  ∃ as log, Run (step p) s as s' log ∧ ShippedOnly as ∧ sentTimes log = ts

theorem Sends.refl (s : State p T) : Sends s s [] :=
  ⟨[], [], .nil, (fun a ha => by cases ha), rfl⟩

theorem Sends.trans {s s' s'' : State p T} {ts ts' : List T} (h : Sends s s' ts)
    (h' : Sends s' s'' ts') : Sends s s'' (ts ++ ts') := by
  obtain ⟨as, log, hr, hshipped, rfl⟩ := h
  obtain ⟨as', log', hr', hshipped', rfl⟩ := h'
  refine ⟨as ++ as', log ++ log', hr.append hr', ?_, sentTimes_append log log'⟩
  exact List.forall_mem_append.mpr ⟨hshipped, hshipped'⟩

theorem Sends.of_task {s : State p T} {t : T} {c : Client HandlerType}
    {task : TaskAt p.mSubscriber.length T}
    {es : List (ProgramEvent HandlerType p.mSubscriber.length)} (hnow : s.now ≤ t)
    (h : taskStep p.mSubscriber s.client t s.task = some (c, task, es)) :
    Sends s { s with client := c, task := task, now := t }
      (@sentTimes _ _ p (es.map fun e => (t, e))) :=
  ⟨_, _, .single (step_task hnow h), List.forall_mem_singleton.mpr rfl, rfl⟩

theorem Sends.of_impl {s : State p T} {t : T} {c : Client HandlerType} {impl : ImplAt T}
    {es : List (ProgramEvent HandlerType p.mSubscriber.length)} (hnow : s.now ≤ t)
    (h : implStep p.myAsyncLambda s.client t s.impl = some (c, impl, es)) :
    Sends s { s with client := c, impl := impl, now := t }
      (@sentTimes _ _ p (es.map fun e => (t, e))) :=
  ⟨_, _, .single (step_impl hnow h), List.forall_mem_singleton.mpr rfl, rfl⟩

/- The session is ready and nothing has ended it. -/
structure Serving (c : Client HandlerType) : Prop where
  ready : c.mSessionReady = true
  unstopped : c.mStopSubscriber = false
  noError : c.mError = 0

theorem sends_request {s : State p T} {t : T} {i : Fin p.mSubscriber.length}
    (hc : Serving s.client) (hnow : s.now ≤ t) (hi : s.task = .request i) :
    ∃ c, Serving c ∧
      Sends s { s with client := c, task := taskAnswered t i, now := t } [t] := by
  have hcall : taskStep p.mSubscriber s.client t s.task =
      some (s.client, .calling i, [.called i]) := by
    rw [hi]
    rfl
  have hcalled := Sends.of_task hnow hcall
  have hsent := Sends.of_task (s := { s with task := .calling i, now := t }) (le_refl t)
    (taskStep_sent p.mSubscriber t i hc.ready)
  exact ⟨{ s.client with posted := s.client.posted ++ [_] },
    ⟨hc.ready, hc.unstopped, hc.noError⟩, hcalled.trans hsent⟩

theorem sends_round {s : State p T} {t : T} (hc : Serving s.client) (hnow : s.now ≤ t)
    (h : s.task = .testStop) (hn : 0 < p.mSubscriber.length) :
    ∃ c i, Serving c ∧
      Sends s { s with client := c, task := taskAnswered t i, now := t } [t] := by
  have hstop : taskStep p.mSubscriber s.client t s.task = some (s.client, .testError, []) := by
    rw [h, taskStep, hc.unstopped]
    rfl
  have herror : taskStep p.mSubscriber s.client t .testError =
      some (s.client, .request ⟨0, hn⟩, []) := by
    rw [taskStep, hc.noError, fromEntry, dif_pos hn]
    rfl
  have htested := (Sends.of_task hnow hstop).trans (.of_task (le_refl t) herror)
  obtain ⟨c, hc', hrequest⟩ := sends_request
    (s := { s with task := .request ⟨0, hn⟩, now := t }) hc (le_refl t) rfl
  exact ⟨c, _, hc', htested.trans hrequest⟩

/- The task wakes up and sends its next request. -/
theorem sends_task {s : State p T} {t wake : T} {i : Fin p.mSubscriber.length}
    (hc : Serving s.client) (hnow : s.now ≤ t) (h : s.task = .pause i wake) (hw : wake ≤ t) :
    ∃ c j, Serving c ∧
      Sends s { s with client := c, task := taskAnswered t j, now := t } [t] := by
  have hnext : taskStep p.mSubscriber s.client t s.task =
      some (s.client, fromEntry _ (i + 1), []) := by
    rw [h]
    exact if_pos hw
  have hwoken := Sends.of_task hnow hnext
  by_cases hi : i + 1 < p.mSubscriber.length
  · obtain ⟨c, hc', hrequest⟩ := sends_request
      (s := { s with task := fromEntry _ (i + 1), now := t }) hc (le_refl t) (dif_pos hi)
    exact ⟨c, _, hc', hwoken.trans hrequest⟩
  · obtain ⟨c, j, hc', hround⟩ := sends_round
      (s := { s with task := fromEntry _ (i + 1), now := t }) hc (le_refl t) (dif_neg hi)
      (Nat.zero_lt_of_lt i.isLt)
    exact ⟨c, j, hc', hwoken.trans hround⟩

theorem sends_ping {s : State p T} {t : T} (hc : Serving s.client) (hnow : s.now ≤ t)
    (h : s.impl = .testError) :
    ∃ c, Serving c ∧
      Sends s { s with client := c, impl := .pause (t + ((1000 : ℕ) : T)), now := t } [t] := by
  have herror : implStep p.myAsyncLambda s.client t s.impl =
      some (s.client, .testStop, ([] : List (ProgramEvent HandlerType p.mSubscriber.length))) := by
    rw [h, implStep, hc.noError]
    rfl
  have hstop : implStep p.myAsyncLambda s.client t (.testStop : ImplAt T) =
      some (s.client, .calling, ([] : List (ProgramEvent HandlerType p.mSubscriber.length))) := by
    rw [implStep, hc.unstopped]
    rfl
  have htested := (Sends.of_impl hnow herror).trans (.of_impl (le_refl t) hstop)
  have hsent := Sends.of_impl (s := { s with impl := .calling, now := t }) (le_refl t)
    (implStep_sent p.mSubscriber.length p.myAsyncLambda t hc.ready)
  exact ⟨{ s.client with posted := s.client.posted ++ [_] },
    ⟨hc.ready, hc.unstopped, hc.noError⟩, htested.trans hsent⟩

theorem sends_impl {s : State p T} {t wake : T} (hc : Serving s.client) (hnow : s.now ≤ t)
    (h : s.impl = .pause wake) (hw : wake ≤ t) :
    ∃ c, Serving c ∧
      Sends s { s with client := c, impl := .pause (t + ((1000 : ℕ) : T)), now := t } [t] := by
  have hnext : implStep p.myAsyncLambda s.client t s.impl =
      some (s.client, .testError, ([] : List (ProgramEvent HandlerType p.mSubscriber.length))) := by
    rw [h]
    exact if_pos hw
  obtain ⟨c, hc', hping⟩ := sends_ping (s := { s with impl := .testError, now := t }) hc
    (le_refl t) rfl
  exact ⟨c, hc', (Sends.of_impl hnow hnext).trans hping⟩

/-! ### From the start -/

/- The client goes through a run of its own while the loops wait. -/
theorem Sends.of_client {s : State p T} {as : List (Action HandlerType)} {c : Client HandlerType}
    {log : List (Event HandlerType)} (hl : s.task.launched = true)
    (has : ∀ a ∈ as, otherCall (.client a) = false) (h : Run Client.step s.client as c log) :
    Sends s { s with client := c } [] := by
  induction h with
  | nil => exact .refl s
  | @snoc as c log a c' es hr hs ih =>
    have hbefore := ih fun a ha => has a (List.mem_append_left _ ha)
    have hother := has a (List.mem_append_right _ (List.mem_singleton_self a))
    have hlast : step p { s with client := c } (s.now, .client a) =
        some ({ s with client := c' }, (es.map .client).map fun e => (s.now, e)) := by
      simp only [step, le_refl, if_true, stepAt, hl, Bool.not_true, Bool.and_false, hs,
        Bool.false_eq_true, if_false, Option.map_some]
    refine hbefore.trans ⟨_, _, .single hlast, List.forall_mem_singleton.mpr hother, ?_⟩
    exact sentTimes_of_client s.now hother hs

/- As `main` does it, all at instant 0. -/
theorem sends_launch [Inhabited HandlerType] (p : Shipped HandlerType) (mHost : Str) :
    ∃ s : State p T, Serving s.client ∧ s.now = 0 ∧ s.task = .testStop ∧ s.impl = .testError ∧
      Sends (initial p mHost) s [] := by
  let c : Client HandlerType :=
    { Client.initial mHost with setup := [.resolve], runReturned := true }
  have hsession : step p (initial p mHost : State p T) (0, .client (.sessionRun true)) =
      some (⟨c, .notLaunched, .notLaunched, 0⟩, [(0, .client (.done .hostName))]) :=
    if_pos (le_refl 0)
  have himpl : step p (⟨c, .notLaunched, .notLaunched, 0⟩ : State p T) (0, .launchImpl) =
      some (⟨c, .notLaunched, .testError, 0⟩, []) := if_pos (le_refl 0)
  have htask : step p (⟨c, .notLaunched, .testError, 0⟩ : State p T) (0, .launchTask) =
      some (⟨c, .testStop, .testError, 0⟩, []) := if_pos (le_refl 0)
  have hlaunched : Sends (initial p mHost) (⟨c, .testStop, .testError, 0⟩ : State p T) [] :=
    ⟨_, _, (Run.single hsession |>.snoc himpl).snoc htask, by simp [ShippedOnly, otherCall], rfl⟩
  have hready : Run Client.step c [.iocRun, .setupDone .resolve 0, .setupDone .connect 0,
      .setupDone .handshake 0] _ _ := run_of_exec rfl
  have hset := Sends.of_client (s := (⟨c, .testStop, .testError, 0⟩ : State p T)) rfl
    (by simp [otherCall]) hready
  exact ⟨_, ⟨rfl, rfl, rfl⟩, rfl, rfl, rfl, hlaunched.trans hset⟩

/-! ### Second after second -/

/- Both loops sleep, and may go on from the instant `t`. -/
structure Working (s : State p T) (t : T) : Prop where
  now : s.now ≤ t
  serving : Serving s.client
  task : ∃ i wake, s.task = .pause i wake ∧ wake ≤ t
  impl : ∃ wake, s.impl = .pause wake ∧ wake ≤ t

variable [IsStrictOrderedRing T]

theorem le_add_ms (t : T) (n : ℕ) : t ≤ t + (n : T) :=
  le_add_of_nonneg_right (Nat.cast_nonneg n)

theorem working_second {s : State p T} {t : T} (h : Working s t) :
    ∃ s', Working s' (t + ((1000 : ℕ) : T)) ∧ Sends s s' [t, t, t + (cTimeoutMs : T)] := by
  obtain ⟨hnow, hserving, ⟨i, wake, htask, hwake⟩, ⟨wake', himpl, hwake'⟩⟩ := h
  obtain ⟨c₁, hc₁, hping⟩ := sends_impl hserving hnow himpl hwake'
  obtain ⟨c₂, j, hc₂, hfirst⟩ := sends_task
    (s := { s with client := c₁, impl := .pause (t + ((1000 : ℕ) : T)), now := t })
    hc₁ (le_refl t) htask hwake
  have hhalf : t ≤ t + (cTimeoutMs : T) := le_add_ms t cTimeoutMs
  obtain ⟨c₃, k, hc₃, hsecond⟩ := sends_task (t := t + (cTimeoutMs : T))
    (s := ⟨c₂, taskAnswered t j, .pause (t + ((1000 : ℕ) : T)), t⟩) hc₂ hhalf rfl (le_refl _)
  have hwhole : t + (cTimeoutMs : T) + (cTimeoutMs : T) = t + ((1000 : ℕ) : T) := by
    rw [add_assoc, ← Nat.cast_add]
    rfl
  refine ⟨_, ⟨?_, hc₃, ⟨k, _, rfl, hwhole.le⟩, ⟨_, rfl, le_refl _⟩⟩,
    (hping.trans hfirst).trans hsecond⟩
  rw [← hwhole]
  exact le_add_ms _ cTimeoutMs

theorem working_seconds (k : ℕ) {s : State p T} {t : T} (h : Working s t) :
    ∃ s' ts, Working s' (t + (k : T) * ((1000 : ℕ) : T)) ∧ Sends s s' ts ∧ ts.length = 3 * k ∧
      ∀ u ∈ ts, t ≤ u ∧ u < t + (k : T) * ((1000 : ℕ) : T) := by
  induction k with
  | zero =>
    refine ⟨s, [], ?_, .refl s, rfl, fun u hu => by cases hu⟩
    simpa using h
  | succ k ih =>
    obtain ⟨s₁, ts, h₁, hsends, hlength, hinside⟩ := ih
    obtain ⟨s₂, h₂, hsecond⟩ := working_second h₁
    have hstart : t ≤ t + (k : T) * ((1000 : ℕ) : T) := by
      rw [← Nat.cast_mul]
      exact le_add_ms t _
    have hnext : t + ((k + 1 : ℕ) : T) * ((1000 : ℕ) : T) =
        t + (k : T) * ((1000 : ℕ) : T) + ((1000 : ℕ) : T) := by
      rw [Nat.cast_succ, add_one_mul, add_assoc]
    have hhalf : (cTimeoutMs : T) < ((1000 : ℕ) : T) := Nat.cast_lt.mpr (by decide)
    have hzero : (0 : T) ≤ (cTimeoutMs : T) := Nat.cast_nonneg cTimeoutMs
    refine ⟨s₂, ts ++ _, hnext ▸ h₂, hsends.trans hsecond, ?_, ?_⟩
    · rw [List.length_append, hlength]
      simp only [List.length_cons, List.length_nil]
      omega
    · rw [hnext]
      intro u hu
      rcases List.mem_append.mp hu with hu | hu
      · obtain ⟨hlow, hhigh⟩ := hinside u hu
        exact ⟨hlow, lt_of_lt_of_le hhigh (le_add_ms _ 1000)⟩
      · simp only [List.mem_cons, List.not_mem_nil, or_false] at hu
        rcases hu with rfl | rfl | rfl
        · exact ⟨hstart, by linarith⟩
        · exact ⟨hstart, by linarith⟩
        · exact ⟨by linarith, by linarith⟩

/-! ### The limit -/

/- Every run of the shipped client keeps the limit in every half-open minute. -/
def RateKept [Inhabited HandlerType] (p : Shipped HandlerType) (T : Type) [CommRing T]
    [LinearOrder T] : Prop :=
  ∀ (mHost : Str) (as : List (T × ProgramAction HandlerType)) (s : State p T) (log : Log p T),
    Run (step p) (initial p mHost) as s log → ShippedOnly as →
    ∀ start, (within start minute (sentTimes log)).length ≤ cBinanceLimitRequestsPerMin

/- Forty-one seconds suffice. -/
theorem exceeded [Inhabited HandlerType] (hne : p.mSubscriber ≠ []) (mHost : Str) :
    ∃ (as : List (T × ProgramAction HandlerType)) (s : State p T) (log : Log p T),
      Run (step p) (initial p mHost) as s log ∧ ShippedOnly as ∧
      ∃ start, cBinanceLimitRequestsPerMin < (within start minute (sentTimes log)).length := by
  obtain ⟨s₀, hserving, hnow, htask, himpl, hlaunch⟩ := sends_launch (T := T) p mHost
  obtain ⟨c₁, hc₁, hping⟩ := sends_ping hserving (le_refl s₀.now) himpl
  obtain ⟨c₂, i, hc₂, hround⟩ := sends_round
    (s := { s₀ with client := c₁, impl := .pause (s₀.now + ((1000 : ℕ) : T)) })
    hc₁ (le_refl s₀.now) htask (List.length_pos_of_ne_nil hne)
  have hhalf : (cTimeoutMs : T) ≤ ((1000 : ℕ) : T) := Nat.cast_le.mpr (by decide)
  have hworking : Working (⟨c₂, taskAnswered s₀.now i, .pause (s₀.now + ((1000 : ℕ) : T)), s₀.now⟩ :
      State p T) (s₀.now + ((1000 : ℕ) : T)) :=
    ⟨le_add_ms _ 1000, hc₂, ⟨i, _, rfl, by linarith⟩, ⟨_, rfl, le_refl _⟩⟩
  obtain ⟨s, ts, -, hsends, hlength, hinside⟩ := working_seconds 41 hworking
  obtain ⟨as, log, hr, hshipped, hlog⟩ := ((hlaunch.trans hping).trans hround).trans hsends
  refine ⟨as, s, log, hr, hshipped, s₀.now + ((1000 : ℕ) : T), ?_⟩
  have hminute : ((41 : ℕ) : T) * ((1000 : ℕ) : T) ≤ minute := by
    rw [minute, ← Nat.cast_mul]
    exact Nat.cast_le.mpr (by decide)
  have hall : within (s₀.now + ((1000 : ℕ) : T)) minute ts = ts := by
    refine List.filter_eq_self.mpr fun u hu => ?_
    obtain ⟨hlow, hhigh⟩ := hinside u hu
    exact decide_eq_true ⟨hlow, lt_of_lt_of_le hhigh (by linarith)⟩
  rw [hlog, within_append, List.length_append, hall, hlength, cBinanceLimitRequestsPerMin]
  omega

/-- The limit is kept in every run of the shipped client if and only if there is no
subscription. -/
theorem rate_kept_iff [Inhabited HandlerType] (p : Shipped HandlerType) :
    RateKept p T ↔ p.mSubscriber = [] := by
  constructor
  · intro hkept
    by_contra hne
    obtain ⟨as, s, log, hr, hshipped, start, hmany⟩ := exceeded (T := T) hne []
    exact absurd (hkept [] as s log hr hshipped start) (Nat.not_le_of_lt hmany)
  · intro hempty mHost as s log hr hshipped start
    have hsum := within_sent hr hshipped start minute
    have hpings := (rate_of_each hr start).2
    rw [taskTimes_nil hempty log] at hsum
    have hnone : (within start minute ([] : List T)).length = 0 := rfl
    rw [hsum, hnone, cBinanceLimitRequestsPerMin]
    omega

theorem rate_kept_without_subscriptions : RateKept (⟨[], 0⟩ : Shipped ℕ) ℤ :=
  (rate_kept_iff _).mpr rfl

/- The subscriptions of `main`. -/
theorem rate_exceeded_by_main : ¬ RateKept (⟨mainSubscribers 0, 1⟩ : Shipped ℕ) ℤ := by
  intro hkept
  obtain ⟨as, s, log, hr, hshipped, start, hmany⟩ :=
    exceeded (T := ℤ) (p := ⟨mainSubscribers 0, 1⟩) (List.cons_ne_nil _ _) "api.binance.com".toList
  exact absurd (hkept _ as s log hr hshipped start) (Nat.not_le_of_lt hmany)

end RestClient.Program
