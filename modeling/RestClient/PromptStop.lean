import RestClient.LoopExit
import RestClient.ProgramMoves

/-!
# Stopping the subscriber task

The task tests the two flags before each round of the list, not before each request, as
`RestClient::AsyncRequest` does. A flag set within a round is seen when the round is over.
-/

namespace RestClient
open Machine
variable {HandlerType T : Type}

/- A flag that is set stays set. -/
theorem Client.flags_kept {s s' : Client HandlerType} {a : Action HandlerType}
    {es : List (Event HandlerType)} (hs : Client.step s a = some (s', es)) :
    (s.mStopSubscriber = true → s'.mStopSubscriber = true) ∧ (s.mError ≠ 0 → s'.mError ≠ 0) := by
  cases Client.move_of_step hs with
  | setupFailed op ec ctx hc ho he => exact ⟨id, fun _ => he⟩
  | readFailed ec response hc hr he => exact ⟨id, fun _ => he⟩
  | writeFailed op ec hc ho he => exact ⟨id, fun _ => he⟩
  | signal => exact ⟨fun _ => rfl, id⟩
  | _ => exact ⟨id, id⟩

/- The signal handler sets `mStopSubscriber`, the other handlers `mError`. -/
theorem Client.flag_set_by {s s' : Client HandlerType} {a : Action HandlerType}
    {es : List (Event HandlerType)} (hclear : ¬ FlagSet s) (hset : FlagSet s')
    (hs : Client.step s a = some (s', es)) :
    (a = .signal ∧ s'.mError = 0) ∨ (a ≠ .signal ∧ s'.mError ≠ 0) := by
  have herror : s.mError = 0 := by
    by_contra he
    exact hclear (.inr he)
  cases Client.move_of_step hs with
  | setupFailed op ec ctx hc ho he => exact .inr ⟨by simp, he⟩
  | readFailed ec response hc hr he => exact .inr ⟨by simp, he⟩
  | writeFailed op ec hc ho he => exact .inr ⟨by simp, he⟩
  | signal => exact .inl ⟨rfl, herror⟩
  | _ => exact absurd hset hclear

namespace Program
variable {p : Shipped HandlerType}

/- The entries whose call of `Session::AsyncRequest` the task started. -/
def started (log : Log p T) : List (Fin p.mSubscriber.length) :=
  log.filterMap fun e =>
    match e.2 with
    | .called i => some i
    | _ => none

@[simp] theorem started_append (log es : Log p T) :
    started (log ++ es) = started log ++ started es := List.filterMap_append

/- The calls the task still starts before it tests the flag that is set: `signalled`
tells which. -/
def callsAhead {n : ℕ} (signalled : Bool) : TaskAt n T → ℕ
  | .request i => n - i
  | .calling i => n - (i + 1)
  | .refused i _ => n - (i + 1)
  | .pause i _ => n - (i + 1)
  | .testError => if signalled then n else 0
  | _ => 0

def signalled : ProgramAction HandlerType → Bool
  | .client .signal => true
  | _ => false

/-! ### A round that is over -/

/- A flag is set, and no call is left before the task sees it. -/
structure Stopping (s : State p T) : Prop where
  flag : Client.FlagSet s.client
  noneLeft : callsAhead (s.client.mError == 0) s.task = 0

theorem callsAhead_fromEntry (n i : ℕ) (seen : Bool) :
    callsAhead seen (fromEntry n i : TaskAt n T) = n - i := by
  unfold fromEntry
  by_cases h : i < n
  · rw [dif_pos h]
    rfl
  · rw [dif_neg h, Nat.sub_eq_zero_of_le (Nat.le_of_not_lt h)]
    rfl

/- The more flags are set, the sooner the task sees one. -/
theorem callsAhead_le {n : ℕ} {seen seen' : Bool} (h : seen' = true → seen = true)
    (task : TaskAt n T) : callsAhead seen' task ≤ callsAhead seen task := by
  cases task with
  | testError =>
    cases hseen' : seen' with
    | false => exact Nat.zero_le _
    | true => rw [h hseen']
  | _ => exact Nat.le_refl _

variable [CommRing T] [LinearOrder T]

theorem stopping_task {s : State p T} {t : T} {c : Client HandlerType}
    {task : TaskAt p.mSubscriber.length T}
    {es : List (ProgramEvent HandlerType p.mSubscriber.length)} (h : Stopping s)
    (hm : TaskMove p.mSubscriber s.client t s.task c task es) :
    Stopping { s with client := c, task := task, now := t } ∧
      @started _ _ p (es.map fun e => (t, e)) = [] := by
  obtain ⟨hflag, hover⟩ := h
  generalize s.task = old at hm hover
  cases hm with
  | stopped hf => exact ⟨⟨hflag, rfl⟩, rfl⟩
  | unstopped hf =>
    -- the flag that is set is the one tested next
    have herror : s.client.mError ≠ 0 := by
      rcases hflag with hst | he
      · exact absurd (hf.symm.trans hst) Bool.false_ne_true
      · exact he
    refine ⟨⟨hflag, ?_⟩, rfl⟩
    exact if_neg (by simpa using herror)
  | failed hf => exact ⟨⟨hflag, rfl⟩, rfl⟩
  | round hf =>
    refine ⟨⟨hflag, ?_⟩, rfl⟩
    rw [callsAhead_fromEntry]
    simpa [callsAhead, hf] using hover
  | call i =>
    have hi := i.isLt
    simp only [callsAhead] at hover
    omega
  | sent i hn => exact ⟨⟨hflag, hover⟩, rfl⟩
  | refuse i hn => exact ⟨⟨hflag, hover⟩, rfl⟩
  | answer i wake hw => exact ⟨⟨hflag, hover⟩, rfl⟩
  | next i wake hw =>
    refine ⟨⟨hflag, ?_⟩, rfl⟩
    rw [callsAhead_fromEntry]
    exact hover

/- Only the task starts calls for entries. -/
theorem ImplMove.started_nil {myAsyncLambda : HandlerType} {c c' : Client HandlerType} {t : T}
    {impl impl' : ImplAt T} {es : List (ProgramEvent HandlerType p.mSubscriber.length)}
    (h : ImplMove myAsyncLambda c t impl c' impl' es) :
    @started _ _ p (es.map fun e => (t, e)) = [] := by
  cases h with
  | _ => rfl

theorem stopping_step {s s' : State p T} {es : Log p T} {a : T × ProgramAction HandlerType}
    (h : Stopping s) (hs : step p s a = some (s', es)) : Stopping s' ∧ started es = [] := by
  obtain ⟨t, a⟩ := a
  obtain ⟨-, es, hm, rfl⟩ := move_of_step hs
  cases hm with
  | launchTask hl hr => exact ⟨⟨h.flag, rfl⟩, rfl⟩
  | launchImpl hl hr => exact ⟨⟨h.flag, h.noneLeft⟩, rfl⟩
  | task c task es hm => exact stopping_task h hm
  | impl c impl es hm =>
    obtain ⟨posted, hc⟩ := hm.client_eq
    refine ⟨⟨?_, ?_⟩, hm.started_nil⟩
    · rw [hc]
      exact h.flag
    · rw [hc]
      exact h.noneLeft
  | client a c es hc =>
    obtain ⟨hstop, herror⟩ := Client.flags_kept hc
    refine ⟨⟨h.flag.imp hstop herror, ?_⟩, filterMap_client t _ (fun _ => rfl) es⟩
    have hseen : (c.mError == 0) = true → (s.client.mError == 0) = true := by
      intro he
      rw [beq_iff_eq] at he ⊢
      by_contra hne
      exact herror hne he
    exact Nat.le_zero.mp ((callsAhead_le hseen s.task).trans h.noneLeft.le)

theorem started_nil_of_stopping {s s' : State p T} {log : Log p T}
    {as : List (T × ProgramAction HandlerType)} (h : Stopping s) (hr : Run (step p) s as s' log) :
    started log = [] := by
  have hkeep := hr.invariant (fun s log => Stopping s ∧ started log = []) ⟨h, rfl⟩ ?_
  · exact hkeep.2
  · rintro s log a s' es ⟨hstop, hnone⟩ hs
    obtain ⟨hstop', hes⟩ := stopping_step hstop hs
    refine ⟨hstop', ?_⟩
    rw [started_append, hnone, hes, List.append_nil]

/-! ### A round that is not over -/

/- Some continuation starts a call. -/
def StartsLater (s : State p T) : Prop :=
  ∃ as s' log, Run (step p) s as s' log ∧ started log ≠ []

theorem StartsLater.of_step {s s' : State p T} {es : Log p T} {a : T × ProgramAction HandlerType}
    (h : StartsLater s') (hs : step p s a = some (s', es)) : StartsLater s := by
  obtain ⟨as, s'', log, hr, hne⟩ := h
  refine ⟨a :: as, s'', es ++ log, (Run.single hs).append hr, ?_⟩
  rw [started_append]
  exact List.append_ne_nil_of_right_ne_nil _ hne

theorem StartsLater.of_task {s : State p T} {t : T} {c : Client HandlerType}
    {task : TaskAt p.mSubscriber.length T}
    {es : List (ProgramEvent HandlerType p.mSubscriber.length)} (hnow : s.now ≤ t)
    (ht : taskStep p.mSubscriber s.client t s.task = some (c, task, es))
    (h : StartsLater { s with client := c, task := task, now := t }) : StartsLater s :=
  h.of_step (step_task hnow ht)

theorem startsLater_request {s : State p T} {i : Fin p.mSubscriber.length}
    (h : s.task = .request i) : StartsLater s := by
  have ht : taskStep p.mSubscriber s.client s.now s.task =
      some (s.client, .calling i, [.called i]) := by
    rw [h]
    rfl
  exact ⟨_, _, _, .single (step_task (le_refl s.now) ht), List.cons_ne_nil _ _⟩

theorem startsLater_fromEntry {s : State p T} {i : ℕ} (hi : i < p.mSubscriber.length)
    (h : s.task = fromEntry _ i) : StartsLater s := by
  rw [fromEntry, dif_pos hi] at h
  exact startsLater_request h

theorem startsLater_pause {s : State p T} {i : Fin p.mSubscriber.length} {wake : T}
    (h : s.task = .pause i wake) (hi : i + 1 < p.mSubscriber.length) : StartsLater s := by
  have ht : taskStep p.mSubscriber s.client (max s.now wake) s.task =
      some (s.client, fromEntry _ (i + 1), []) := by
    rw [h]
    exact if_pos (le_max_right s.now wake)
  exact .of_task (le_max_left s.now wake) ht (startsLater_fromEntry hi rfl)

theorem startsLater_refused {s : State p T} {i : Fin p.mSubscriber.length} {wake : T}
    (h : s.task = .refused i wake) (hi : i + 1 < p.mSubscriber.length) : StartsLater s := by
  have ht : taskStep p.mSubscriber s.client (max s.now wake) s.task =
      some (s.client, taskAnswered (max s.now wake) i,
        [.answered (.task i) .sessionNotReady]) := by
    rw [h]
    exact if_pos (le_max_right s.now wake)
  exact .of_task (le_max_left s.now wake) ht (startsLater_pause rfl hi)

theorem startsLater_calling {s : State p T} {i : Fin p.mSubscriber.length}
    (h : s.task = .calling i) (hi : i + 1 < p.mSubscriber.length) : StartsLater s := by
  cases hn : s.client.mSessionReady with
  | true =>
    have ht := taskStep_sent p.mSubscriber s.now i hn
    rw [← h] at ht
    exact .of_task (le_refl s.now) ht (startsLater_pause rfl hi)
  | false =>
    have ht := taskStep_refuse p.mSubscriber s.now i hn
    rw [← h] at ht
    exact .of_task (le_refl s.now) ht (startsLater_refused rfl hi)

theorem startsLater_testError {s : State p T} (h : s.task = .testError)
    (he : s.client.mError = 0) (hn : 0 < p.mSubscriber.length) : StartsLater s := by
  have ht : taskStep p.mSubscriber s.client s.now s.task =
      some (s.client, fromEntry _ 0, []) := by
    rw [h, taskStep, he]
    rfl
  exact .of_task (le_refl s.now) ht (startsLater_fromEntry hn rfl)

theorem startsLater_of_callsAhead {s : State p T}
    (h : callsAhead (s.client.mError == 0) s.task ≠ 0) : StartsLater s := by
  cases htask : s.task with
  | request i => exact startsLater_request htask
  | calling i =>
    simp only [htask, callsAhead] at h
    exact startsLater_calling htask (by omega)
  | refused i wake =>
    simp only [htask, callsAhead] at h
    exact startsLater_refused htask (by omega)
  | pause i wake =>
    simp only [htask, callsAhead] at h
    exact startsLater_pause htask (by omega)
  | testError =>
    simp only [htask, callsAhead, beq_iff_eq, ne_eq, ite_eq_right_iff, not_forall] at h
    obtain ⟨he, hn⟩ := h
    exact startsLater_testError htask he (Nat.pos_of_ne_zero hn)
  | _ => simp [htask, callsAhead] at h

/-! ### The exact condition -/

theorem callsAhead_set {s s' : State p T} {es : Log p T} {a : T × ProgramAction HandlerType}
    (hclear : ¬ Client.FlagSet s.client) (hset : Client.FlagSet s'.client)
    (hs : step p s a = some (s', es)) :
    callsAhead (s'.client.mError == 0) s'.task = callsAhead (signalled a.2) s.task := by
  obtain ⟨t, a⟩ := a
  obtain ⟨-, es, hm, rfl⟩ := move_of_step hs
  cases hm with
  | launchTask => exact absurd hset hclear
  | launchImpl => exact absurd hset hclear
  | task c task es hm =>
    obtain ⟨posted, rfl⟩ := hm.client_eq
    exact absurd hset hclear
  | impl c impl es hm =>
    obtain ⟨posted, rfl⟩ := hm.client_eq
    exact absurd hset hclear
  | client a c es hc =>
    rcases Client.flag_set_by hclear hset hc with ⟨rfl, he⟩ | ⟨hne, he⟩
    · show callsAhead (c.mError == 0) s.task = _
      rw [he]
      rfl
    · have hseen : (c.mError == 0) = false := by simpa using he
      have hother : signalled (ProgramAction.client a) = false := by
        cases a with
        | signal => exact absurd rfl hne
        | _ => rfl
      show callsAhead (c.mError == 0) s.task = callsAhead (signalled (.client a)) s.task
      rw [hseen, hother]

/- A step that sets a flag finds the task with no call left to start before its next
test of that flag. -/
def SetsBetweenRounds (s : State p T) (_log : Log p T) (a : T × ProgramAction HandlerType) : Prop :=
  ∀ s' es, step p s a = some (s', es) → ¬ Client.FlagSet s.client → Client.FlagSet s'.client →
    callsAhead (signalled a.2) s.task = 0

/- With a flag set, no call is started. -/
def StartsUnflagged (s : State p T) (_log : Log p T) (a : T × ProgramAction HandlerType) : Prop :=
  ∀ s' es, step p s a = some (s', es) → Client.FlagSet s.client → started es = []

theorem startsUnflagged_of_sets [Inhabited HandlerType] {mHost : Str}
    {as : List (T × ProgramAction HandlerType)}
    (h : EachStep (step p) (initial p mHost) as SetsBetweenRounds) :
    EachStep (step p) (initial p mHost) as StartsUnflagged := by
  have hstopping : Always (step p) (initial p mHost) as
      fun s _ => Client.FlagSet s.client → Stopping s := by
    refine always_of_eachStep (fun _ _ => True) _ SetsBetweenRounds (fun _ _ _ _ _ => trivial)
      ?_ ?_ h
    · intro hflag
      rcases hflag with hst | he
      · cases hst
      · exact absurd rfl he
    · intro s log a s' es _ _ hkeep hok hs hset
      by_cases hflag : Client.FlagSet s.client
      · exact (stopping_step (hkeep hflag) hs).1
      · refine ⟨hset, ?_⟩
        rw [callsAhead_set hflag hset hs]
        exact hok s' es hs hflag hset
  intro pre a s log hp hr _ s' es hs hflag
  have hprev : pre <+: as := (List.prefix_append pre [a]).trans hp
  exact (stopping_step (hstopping pre s log hprev hr hflag) hs).2

/-- A run whose flags become set only between rounds starts no call with a flag set; and
wherever a flag becomes set, nothing is started from then on if and only if it did so. -/
theorem stops_promptly_iff [Inhabited HandlerType] (p : Shipped HandlerType) (mHost : Str) :
    (∀ as : List (T × ProgramAction HandlerType),
      EachStep (step p) (initial p mHost) as SetsBetweenRounds →
      EachStep (step p) (initial p mHost) as StartsUnflagged) ∧
    ∀ (s s' : State p T) (es : Log p T) (a : T × ProgramAction HandlerType),
      step p s a = some (s', es) → ¬ Client.FlagSet s.client → Client.FlagSet s'.client →
      ((∀ bs s'' log, Run (step p) s' bs s'' log → started log = []) ↔
        callsAhead (signalled a.2) s.task = 0) := by
  refine ⟨fun as => startsUnflagged_of_sets, ?_⟩
  intro s s' es a hs hclear hset
  rw [← callsAhead_set hclear hset hs]
  constructor
  · intro hnone
    by_contra hahead
    obtain ⟨bs, s'', log', hr, hne⟩ := startsLater_of_callsAhead hahead
    exact hne (hnone bs s'' log' hr)
  · intro hover bs s'' log' hr
    exact started_nil_of_stopping ⟨hset, hover⟩ hr

/- The actions of `main` up to a session that is ready, at instant 0. -/
def launch : List (ℤ × ProgramAction ℕ) :=
  [.client (.sessionRun true), .launchImpl, .launchTask, .client .iocRun,
    .client (.setupDone .resolve 0), .client (.setupDone .connect 0),
    .client (.setupDone .handshake 0)].map fun a => (0, a)

/- What shows that a step sets a flag: the flags before and after it, the calls left
before it and the calls started after it. -/
def flagView {p : Shipped ℕ} (before after last : State p ℤ × Log p ℤ) :
    Bool × Bool × ℕ × List ℕ :=
  (decide (Client.FlagSet before.1.client), decide (Client.FlagSet after.1.client),
    callsAhead true before.1.task, (started last.2).map Fin.val)

/- The task has started one call and sleeps after it. -/
def firstCall : List (ℤ × ProgramAction ℕ) :=
  launch ++ [(1, .task), (1, .task), (2, .task), (3, .task)]

/- SIGINT while the task sleeps after its only request. -/
theorem stops_promptly_single :
    let p : Shipped ℕ := ⟨[("/api/v3/time".toList, 0)], 1⟩
    ∃ (s s' : State p ℤ) (log es : Log p ℤ),
      Run (step p) (initial p "h".toList) firstCall s log ∧
      step p s (4, .client .signal) = some (s', es) ∧
      ∀ bs s'' log', Run (step p) s' bs s'' log' → started log' = [] := by
  intro p
  obtain ⟨s, log, s', es, s'', log', hr, hs, -, hview⟩ := run_of_observed_around (step p)
    (initial p "h".toList) firstCall [] (4, .client .signal) flagView
    (show _ = some (false, true, 0, []) by decide +kernel)
  obtain ⟨hclear, hview⟩ := Prod.mk.inj hview
  obtain ⟨hset, hview⟩ := Prod.mk.inj hview
  refine ⟨s, s', log, es, hr, hs, ?_⟩
  exact ((stops_promptly_iff p "h".toList).2 s s' es _ hs (of_decide_eq_false hclear)
    (of_decide_eq_true hset)).mpr (Prod.mk.inj hview).1

/- SIGINT while the task of `main` sleeps after its first request: it starts the calls for
the four other subscriptions before it looks at the flag again. -/
theorem stops_late :
    let p : Shipped ℕ := ⟨mainSubscribers 0, 1⟩
    ∃ (s s' s'' : State p ℤ) (log es log' : Log p ℤ),
      Run (step p) (initial p "h".toList) firstCall s log ∧
      step p s (4, .client .signal) = some (s', es) ∧ ¬ Client.FlagSet s.client ∧
      Client.FlagSet s'.client ∧ (∃ bs, Run (step p) s' bs s'' log') ∧
      (started log').map Fin.val = [1, 2, 3, 4] := by
  intro p
  let turn : ℤ → List (ℤ × ProgramAction ℕ) := fun t => [(t, .task), (t, .task), (t, .task)]
  obtain ⟨s, log, s', es, s'', log', hr, hs, hr', hview⟩ := run_of_observed_around (step p)
    (initial p "h".toList) firstCall (turn 503 ++ turn 1003 ++ turn 1503 ++ turn 2003)
    (4, .client .signal) flagView (show _ = some (false, true, 4, [1, 2, 3, 4]) by decide +kernel)
  obtain ⟨hclear, hview⟩ := Prod.mk.inj hview
  obtain ⟨hset, hview⟩ := Prod.mk.inj hview
  exact ⟨s, s', s'', log, es, log', hr, hs, of_decide_eq_false hclear, of_decide_eq_true hset,
    ⟨_, hr'⟩, (Prod.mk.inj hview).2⟩

end Program
end RestClient
