import RestClient.Program

/-!
# What a step of the program can do

One constructor for each way through the steps of the two threads. A thread changes
the client only by a call of `Session::AsyncRequest` that returns `RequestSent`.
-/

namespace RestClient.Program
open Machine
variable {HandlerType T : Type} [CommRing T] [LinearOrder T]

inductive TaskMove (mSubscriber : Subscribers HandlerType) (c : Client HandlerType) (t : T) :
    TaskAt mSubscriber.length T → Client HandlerType → TaskAt mSubscriber.length T →
      List (ProgramEvent HandlerType mSubscriber.length) → Prop
  | stopped (hf : c.mStopSubscriber = true) : TaskMove mSubscriber c t .testStop c .ended []
  | unstopped (hf : c.mStopSubscriber = false) :
      TaskMove mSubscriber c t .testStop c .testError []
  | failed (hf : c.mError ≠ 0) : TaskMove mSubscriber c t .testError c .ended []
  | round (hf : c.mError = 0) : TaskMove mSubscriber c t .testError c (fromEntry _ 0) []
  | call (i) : TaskMove mSubscriber c t (.request i) c (.calling i) [.called i]
  | sent (i) (hn : c.mSessionReady = true) :
      TaskMove mSubscriber c t (.calling i)
        { c with posted := c.posted ++ [((mSubscriber.get i).1, (mSubscriber.get i).2)] }
        (taskAnswered t i)
        [.client (.requested (mSubscriber.get i).1 (mSubscriber.get i).2 .requestSent),
          .answered (.task i) .requestSent]
  | refuse (i) (hn : c.mSessionReady = false) :
      TaskMove mSubscriber c t (.calling i) c (.refused i (t + ((1000 : ℕ) : T)))
        [.client (.requested (mSubscriber.get i).1 (mSubscriber.get i).2 .sessionNotReady)]
  | answer (i wake) (hw : wake ≤ t) :
      TaskMove mSubscriber c t (.refused i wake) c (taskAnswered t i)
        [.answered (.task i) .sessionNotReady]
  | next (i wake) (hw : wake ≤ t) :
      TaskMove mSubscriber c t (.pause i wake) c (fromEntry _ (i + 1)) []

inductive ImplMove {n : ℕ} (myAsyncLambda : HandlerType) (c : Client HandlerType) (t : T) :
    ImplAt T → Client HandlerType → ImplAt T → List (ProgramEvent HandlerType n) → Prop
  | failed (hf : c.mError ≠ 0) :
      ImplMove myAsyncLambda c t .testError c (implAnswered t .sessionError)
        [.answered .impl .sessionError]
  | unfailed (hf : c.mError = 0) : ImplMove myAsyncLambda c t .testError c .testStop []
  | stopped (hf : c.mStopSubscriber = true) :
      ImplMove myAsyncLambda c t .testStop c (implAnswered t .endSubscribeRequest)
        [.answered .impl .endSubscribeRequest]
  | unstopped (hf : c.mStopSubscriber = false) :
      ImplMove myAsyncLambda c t .testStop c .calling []
  | sent (hn : c.mSessionReady = true) :
      ImplMove myAsyncLambda c t .calling
        { c with posted := c.posted ++ [(pingTarget, myAsyncLambda)] } (implAnswered t .requestSent)
        [.client (.requested pingTarget myAsyncLambda .requestSent),
          .answered .impl .requestSent]
  | refuse (hn : c.mSessionReady = false) :
      ImplMove myAsyncLambda c t .calling c (.refused (t + ((1000 : ℕ) : T)))
        [.client (.requested pingTarget myAsyncLambda .sessionNotReady)]
  | answer (wake) (hw : wake ≤ t) :
      ImplMove myAsyncLambda c t (.refused wake) c (implAnswered t .sessionNotReady)
        [.answered .impl .sessionNotReady]
  | next (wake) (hw : wake ≤ t) : ImplMove myAsyncLambda c t (.pause wake) c .testError []

inductive Move (p : Shipped HandlerType) (s : State p T) (t : T) :
    ProgramAction HandlerType → State p T →
      List (ProgramEvent HandlerType p.mSubscriber.length) → Prop
  | launchTask (hl : s.task = .notLaunched) (hr : s.client.runReturned = true) :
      Move p s t .launchTask { s with task := .testStop, now := t } []
  | launchImpl (hl : s.impl = .notLaunched) (hr : s.client.runReturned = true) :
      Move p s t .launchImpl { s with impl := .testError, now := t } []
  | client (a c es) (hs : Client.step s.client a = some (c, es)) :
      Move p s t (.client a) { s with client := c, now := t } (es.map .client)
  | task (c task es) (hm : TaskMove p.mSubscriber s.client t s.task c task es) :
      Move p s t .task { s with client := c, task := task, now := t } es
  | impl (c impl es) (hm : ImplMove p.myAsyncLambda s.client t s.impl c impl es) :
      Move p s t .impl { s with client := c, impl := impl, now := t } es

theorem taskStep_sent (mSubscriber : Subscribers HandlerType) {c : Client HandlerType} (t : T)
    (i : Fin mSubscriber.length) (hn : c.mSessionReady = true) :
    taskStep mSubscriber c t (.calling i) = some (
      { c with posted := c.posted ++ [((mSubscriber.get i).1, (mSubscriber.get i).2)] },
      taskAnswered t i,
      [.client (.requested (mSubscriber.get i).1 (mSubscriber.get i).2 .requestSent),
        .answered (.task i) .requestSent]) := by
  simp only [taskStep, Session.asyncRequest_ready _ _ hn]

theorem taskStep_refuse (mSubscriber : Subscribers HandlerType) {c : Client HandlerType} (t : T)
    (i : Fin mSubscriber.length) (hn : c.mSessionReady = false) :
    taskStep mSubscriber c t (.calling i) = some (c, .refused i (t + ((1000 : ℕ) : T)),
      [.client (.requested (mSubscriber.get i).1 (mSubscriber.get i).2 .sessionNotReady)]) := by
  simp only [taskStep, Session.asyncRequest_notReady _ _ hn]

theorem implStep_sent (n : ℕ) (myAsyncLambda : HandlerType) {c : Client HandlerType} (t : T)
    (hn : c.mSessionReady = true) :
    implStep (n := n) myAsyncLambda c t .calling = some (
      { c with posted := c.posted ++ [(pingTarget, myAsyncLambda)] }, implAnswered t .requestSent,
      [.client (.requested pingTarget myAsyncLambda .requestSent),
        .answered .impl .requestSent]) := by
  simp only [implStep, Session.asyncRequest_ready _ _ hn]

/-! ### Inversion -/

theorem taskMove_of_step {mSubscriber : Subscribers HandlerType} {c c' : Client HandlerType}
    {t : T} {task task' : TaskAt mSubscriber.length T}
    {es : List (ProgramEvent HandlerType mSubscriber.length)}
    (h : taskStep mSubscriber c t task = some (c', task', es)) :
    TaskMove mSubscriber c t task c' task' es := by
  cases task with
  | notLaunched => cases h
  | ended => cases h
  | testStop =>
    cases h
    cases hf : c.mStopSubscriber with
    | true => exact .stopped hf
    | false => exact .unstopped hf
  | testError =>
    cases h
    by_cases hf : c.mError = 0
    · rw [if_neg (not_not_intro hf)]
      exact .round hf
    · rw [if_pos hf]
      exact .failed hf
  | request i =>
    cases h
    exact .call i
  | calling i =>
    cases hn : c.mSessionReady with
    | true =>
      rw [taskStep_sent mSubscriber t i hn] at h
      cases h
      exact .sent i hn
    | false =>
      rw [taskStep_refuse mSubscriber t i hn] at h
      cases h
      exact .refuse i hn
  | refused i wake =>
    obtain ⟨hw, h⟩ := Option.ite_none_right_eq_some.mp h
    cases h
    exact .answer i wake hw
  | pause i wake =>
    obtain ⟨hw, h⟩ := Option.ite_none_right_eq_some.mp h
    cases h
    exact .next i wake hw

theorem implMove_of_step {n : ℕ} {myAsyncLambda : HandlerType} {c c' : Client HandlerType} {t : T}
    {impl impl' : ImplAt T} {es : List (ProgramEvent HandlerType n)}
    (h : implStep myAsyncLambda c t impl = some (c', impl', es)) :
    ImplMove myAsyncLambda c t impl c' impl' es := by
  cases impl with
  | notLaunched => cases h
  | ended => cases h
  | testError =>
    by_cases hf : c.mError = 0
    · simp only [implStep, hf] at h
      cases h
      exact .unfailed hf
    · simp only [implStep, ne_eq, hf] at h
      cases h
      exact .failed hf
  | testStop =>
    cases hf : c.mStopSubscriber with
    | true =>
      simp only [implStep, hf] at h
      cases h
      exact .stopped hf
    | false =>
      simp only [implStep, hf] at h
      cases h
      exact .unstopped hf
  | calling =>
    cases hn : c.mSessionReady with
    | true =>
      rw [implStep_sent n myAsyncLambda t hn] at h
      cases h
      exact .sent hn
    | false =>
      simp only [implStep, Session.asyncRequest_notReady _ _ hn] at h
      cases h
      exact .refuse hn
  | refused wake =>
    obtain ⟨hw, h⟩ := Option.ite_none_right_eq_some.mp h
    cases h
    exact .answer wake hw
  | pause wake =>
    obtain ⟨hw, h⟩ := Option.ite_none_right_eq_some.mp h
    cases h
    exact .next wake hw

theorem move_of_step {p : Shipped HandlerType} {s s' : State p T} {t : T}
    {a : ProgramAction HandlerType} {es : Log p T} (h : step p s (t, a) = some (s', es)) :
    s.now ≤ t ∧ ∃ es', Move p s t a s' es' ∧ es = es'.map fun e => (t, e) := by
  obtain ⟨hnow, hstamped⟩ := Option.ite_none_right_eq_some.mp h
  obtain ⟨⟨s₁, es'⟩, hat, hr⟩ := Option.map_eq_some_iff.mp hstamped
  clear h hstamped
  cases hr
  refine ⟨hnow, es', ?_, rfl⟩
  cases a with
  | launchTask =>
    cases hl : s.task with
    | notLaunched =>
      simp only [stepAt, hl] at hat
      obtain ⟨hr, hat⟩ := Option.ite_none_right_eq_some.mp hat
      cases hat
      exact .launchTask hl hr
    | _ => simp [stepAt, hl] at hat
  | launchImpl =>
    cases hl : s.impl with
    | notLaunched =>
      simp only [stepAt, hl] at hat
      obtain ⟨hr, hat⟩ := Option.ite_none_right_eq_some.mp hat
      cases hat
      exact .launchImpl hl hr
    | _ => simp [stepAt, hl] at hat
  | client a =>
    obtain ⟨-, hclient⟩ := Option.ite_none_left_eq_some.mp hat
    obtain ⟨⟨c, es⟩, hs, hr⟩ := Option.map_eq_some_iff.mp hclient
    cases hr
    exact .client a c es hs
  | task =>
    obtain ⟨⟨c, task, es⟩, hs, hr⟩ := Option.map_eq_some_iff.mp hat
    cases hr
    exact .task c task es (taskMove_of_step hs)
  | impl =>
    obtain ⟨⟨c, impl, es⟩, hs, hr⟩ := Option.map_eq_some_iff.mp hat
    cases hr
    exact .impl c impl es (implMove_of_step hs)

/-! ### Steps that are enabled -/

theorem step_task {p : Shipped HandlerType} {s : State p T} {t : T} {c : Client HandlerType}
    {task : TaskAt p.mSubscriber.length T}
    {es : List (ProgramEvent HandlerType p.mSubscriber.length)} (hnow : s.now ≤ t)
    (h : taskStep p.mSubscriber s.client t s.task = some (c, task, es)) :
    step p s (t, .task) =
      some ({ s with client := c, task := task, now := t }, es.map fun e => (t, e)) := by
  simp only [step, if_pos hnow, stepAt, h, Option.map_some]

theorem step_impl {p : Shipped HandlerType} {s : State p T} {t : T} {c : Client HandlerType}
    {impl : ImplAt T} {es : List (ProgramEvent HandlerType p.mSubscriber.length)}
    (hnow : s.now ≤ t) (h : implStep p.myAsyncLambda s.client t s.impl = some (c, impl, es)) :
    step p s (t, .impl) =
      some ({ s with client := c, impl := impl, now := t }, es.map fun e => (t, e)) := by
  simp only [step, if_pos hnow, stepAt, h, Option.map_some]

/-! ### The client of a program -/

theorem TaskMove.client_eq {mSubscriber : Subscribers HandlerType} {c c' : Client HandlerType}
    {t : T} {task task' : TaskAt mSubscriber.length T}
    {es : List (ProgramEvent HandlerType mSubscriber.length)}
    (h : TaskMove mSubscriber c t task c' task' es) :
    ∃ posted, c' = { c with posted := posted } := by
  cases h with
  | sent i hn => exact ⟨_, rfl⟩
  | _ => exact ⟨c.posted, rfl⟩

theorem ImplMove.client_eq {n : ℕ} {myAsyncLambda : HandlerType} {c c' : Client HandlerType}
    {t : T} {impl impl' : ImplAt T} {es : List (ProgramEvent HandlerType n)}
    (h : ImplMove myAsyncLambda c t impl c' impl' es) :
    ∃ posted, c' = { c with posted := posted } := by
  cases h with
  | sent hn => exact ⟨_, rfl⟩
  | _ => exact ⟨c.posted, rfl⟩

omit [CommRing T] [LinearOrder T] in
/- A view that does not look at the events of the client. -/
theorem filterMap_client {γ : Type} {n : ℕ} (t : T)
    (f : T × ProgramEvent HandlerType n → Option γ) (hf : ∀ e, f (t, .client e) = none)
    (es : List (Event HandlerType)) :
    ((es.map ProgramEvent.client).map fun e => (t, e)).filterMap f = [] := by
  rw [List.map_map, List.filterMap_map]
  exact List.filterMap_eq_nil_iff.mpr fun e _ => hf e

/- The event of the client, if it is one. -/
def clientEvent {n : ℕ} (e : T × ProgramEvent HandlerType n) : Option (Event HandlerType) :=
  match e.2 with
  | .client e => some e
  | _ => none

omit [CommRing T] [LinearOrder T] in
theorem clientEvents_of_client {n : ℕ} (t : T) (es : List (Event HandlerType)) :
    ((es.map (ProgramEvent.client (n := n))).map fun e => (t, e)).filterMap clientEvent = es := by
  rw [List.map_map, List.filterMap_map]
  exact List.filterMap_some

theorem TaskMove.client_run {mSubscriber : Subscribers HandlerType} {c c' : Client HandlerType}
    {t : T} {task task' : TaskAt mSubscriber.length T}
    {es : List (ProgramEvent HandlerType mSubscriber.length)}
    (h : TaskMove mSubscriber c t task c' task' es) :
    ∃ bs, Run Client.step c bs c' ((es.map fun e => (t, e)).filterMap clientEvent) := by
  cases h with
  | sent i hn => exact ⟨_, .single (Client.step_post _ _ hn)⟩
  | refuse i hn =>
    refine ⟨[.asyncRequest (mSubscriber.get i).1 (mSubscriber.get i).2], .single ?_⟩
    rw [Client.step, Session.asyncRequest_notReady _ _ hn]
    rfl
  | _ => exact ⟨[], .nil⟩

theorem ImplMove.client_run {n : ℕ} {myAsyncLambda : HandlerType} {c c' : Client HandlerType}
    {t : T} {impl impl' : ImplAt T} {es : List (ProgramEvent HandlerType n)}
    (h : ImplMove myAsyncLambda c t impl c' impl' es) :
    ∃ bs, Run Client.step c bs c' ((es.map fun e => (t, e)).filterMap clientEvent) := by
  cases h with
  | sent hn => exact ⟨_, .single (Client.step_post _ _ hn)⟩
  | refuse hn =>
    refine ⟨[.asyncRequest pingTarget myAsyncLambda], .single ?_⟩
    rw [Client.step, Session.asyncRequest_notReady _ _ hn]
    rfl
  | _ => exact ⟨[], .nil⟩

/-- What the client of a program does is a run of the client, so what holds after every
run of the client holds in the program. -/
theorem client_of_run [Inhabited HandlerType] {p : Shipped HandlerType} {mHost : Str}
    {as : List (T × ProgramAction HandlerType)} {s : State p T} {log : Log p T}
    (h : Run (step p) (initial p mHost) as s log) :
    ∃ bs, Run Client.step (Client.initial mHost) bs s.client (log.filterMap clientEvent) := by
  have hstep : ∀ (s : State p T) (log : Log p T) (c : Client HandlerType)
      (a : T × ProgramAction HandlerType) (s' : State p T) (es : Log p T),
      s.client = c → step p s a = some (s', es) →
      ∃ bs c', Run Client.step c bs c' (es.filterMap clientEvent) ∧ s'.client = c' := by
    rintro s log c ⟨t, a⟩ s' es rfl hs
    obtain ⟨-, es, hm, rfl⟩ := move_of_step hs
    cases hm with
    | launchTask => exact ⟨[], _, .nil, rfl⟩
    | launchImpl => exact ⟨[], _, .nil, rfl⟩
    | client a c es hc =>
      refine ⟨[a], c, ?_, rfl⟩
      rw [clientEvents_of_client]
      exact .single hc
    | task c task es hm =>
      obtain ⟨bs, hbs⟩ := hm.client_run
      exact ⟨bs, c, hbs, rfl⟩
    | impl c impl es hm =>
      obtain ⟨bs, hbs⟩ := hm.client_run
      exact ⟨bs, c, hbs, rfl⟩
  obtain ⟨bs, c, hrun, hc⟩ := h.simulate_shown clientEvent (fun s _ c => s.client = c) rfl hstep
  exact ⟨bs, hc ▸ hrun⟩

end RestClient.Program
