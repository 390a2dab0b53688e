import RestClient.Lib.Pacing
import RestClient.ProgramMoves

/-!
# The rate limit

`cTimeoutMs` is the pace at which one loop keeps the limit, and the subscriber task uses
all of it. `ClientImpl` sends at its own pace besides.
-/

namespace RestClient.Program
open Machine Pacing
variable {HandlerType T : Type} {p : Shipped HandlerType}

/- The instants of the calls of `Session::AsyncRequest` that returned `RequestSent`. -/
def sentTimes (log : Log p T) : List T :=
  log.filterMap fun e =>
    match e.2 with
    | .client (.requested _ _ .requestSent) => some e.1
    | _ => none

/- Those of the task, and those of `ClientImpl`. -/
def taskTimes (log : Log p T) : List T :=
  log.filterMap fun e =>
    match e.2 with
    | .answered (.task _) .requestSent => some e.1
    | _ => none

def implTimes (log : Log p T) : List T :=
  log.filterMap fun e =>
    match e.2 with
    | .answered .impl .requestSent => some e.1
    | _ => none

@[simp] theorem sentTimes_append (log es : Log p T) :
    sentTimes (log ++ es) = sentTimes log ++ sentTimes es := List.filterMap_append

@[simp] theorem taskTimes_append (log es : Log p T) :
    taskTimes (log ++ es) = taskTimes log ++ taskTimes es := List.filterMap_append

@[simp] theorem implTimes_append (log es : Log p T) :
    implTimes (log ++ es) = implTimes log ++ implTimes es := List.filterMap_append

/- A call of the session by someone else than the two loops. -/
def otherCall : ProgramAction HandlerType → Bool
  | .client (.asyncRequest _ _) => true
  | _ => false

/- The actions of the shipped client. -/
def ShippedOnly (as : List (T × ProgramAction HandlerType)) : Prop :=
  ∀ a ∈ as, otherCall a.2 = false

theorem sentTimes_of_client {a : Action HandlerType} {c c' : Client HandlerType}
    {es : List (Event HandlerType)} (t : T) (ha : otherCall (.client a) = false)
    (hs : Client.step c a = some (c', es)) :
    @sentTimes _ _ p ((es.map ProgramEvent.client).map fun e => (t, e)) = [] := by
  cases Client.move_of_step hs with
  | notReady => cases ha
  | post => cases ha
  | _ => rfl

/- Neither loop sends in what the client does by itself. -/
theorem times_of_client (t : T) (es : List (Event HandlerType)) :
    @taskTimes _ _ p ((es.map ProgramEvent.client).map fun e => (t, e)) = [] ∧
      @implTimes _ _ p ((es.map ProgramEvent.client).map fun e => (t, e)) = [] :=
  ⟨filterMap_client t _ (fun _ => rfl) es, filterMap_client t _ (fun _ => rfl) es⟩

/- Without a subscription the task sends nothing. -/
theorem taskTimes_nil (h : p.mSubscriber = []) (log : Log p T) : taskTimes log = [] := by
  have hnone : p.mSubscriber.length = 0 := congrArg List.length h
  refine List.filterMap_eq_nil_iff.mpr ?_
  rintro ⟨t, e⟩ -
  cases e with
  | answered who status =>
    cases who with
    | task i => exact absurd i.isLt (by omega)
    | impl => rfl
  | _ => rfl

/- The earliest instant of the next request. -/
def taskWake {n : ℕ} (now : T) : TaskAt n T → T
  | .pause _ wake => wake
  | _ => now

def implWake (now : T) : ImplAt T → T
  | .pause wake => wake
  | _ => now

variable [LinearOrder T]

theorem taskWake_le {n : ℕ} {now t : T} (hnow : now ≤ t) (task : TaskAt n T) :
    taskWake now task ≤ taskWake t task := by
  cases task with
  | pause i wake => exact le_refl wake
  | _ => exact hnow

theorem implWake_le {now t : T} (hnow : now ≤ t) (impl : ImplAt T) :
    implWake now impl ≤ implWake t impl := by
  cases impl with
  | pause wake => exact le_refl wake
  | _ => exact hnow

theorem le_taskWake_fromEntry (n i : ℕ) (t : T) : t ≤ taskWake t (fromEntry n i) := by
  unfold fromEntry
  by_cases h : i < n
  · rw [dif_pos h]
    exact le_refl t
  · rw [dif_neg h]
    exact le_refl t

variable [CommRing T]

theorem TaskMove.times {c c' : Client HandlerType} {t : T}
    {task task' : TaskAt p.mSubscriber.length T}
    {es : List (ProgramEvent HandlerType p.mSubscriber.length)}
    (h : TaskMove p.mSubscriber c t task c' task' es) :
    @sentTimes _ _ p (es.map fun e => (t, e)) = @taskTimes _ _ p (es.map fun e => (t, e)) ∧
      @implTimes _ _ p (es.map fun e => (t, e)) = [] := by
  cases h with
  | _ => exact ⟨rfl, rfl⟩

theorem ImplMove.times {myAsyncLambda : HandlerType} {c c' : Client HandlerType} {t : T}
    {impl impl' : ImplAt T} {es : List (ProgramEvent HandlerType p.mSubscriber.length)}
    (h : ImplMove myAsyncLambda c t impl c' impl' es) :
    @sentTimes _ _ p (es.map fun e => (t, e)) = @implTimes _ _ p (es.map fun e => (t, e)) ∧
      @taskTimes _ _ p (es.map fun e => (t, e)) = [] := by
  cases h with
  | _ => exact ⟨rfl, rfl⟩

/- What is sent is sent by one of the two loops. -/
theorem times_of_step {s s' : State p T} {es : Log p T} {a : T × ProgramAction HandlerType}
    (ha : otherCall a.2 = false) (hs : step p s a = some (s', es)) :
    sentTimes es = taskTimes es ++ implTimes es := by
  obtain ⟨t, a⟩ := a
  obtain ⟨-, es, hm, rfl⟩ := move_of_step hs
  cases hm with
  | launchTask => rfl
  | launchImpl => rfl
  | client a c es hc =>
    obtain ⟨htask, himpl⟩ := @times_of_client _ _ p t es
    rw [sentTimes_of_client t ha hc, htask, himpl]
    rfl
  | task c task es hm =>
    rw [hm.times.1, hm.times.2, List.append_nil]
  | impl c impl es hm =>
    rw [hm.times.1, hm.times.2, List.nil_append]

theorem within_sent [Inhabited HandlerType] {mHost : Str}
    {as : List (T × ProgramAction HandlerType)} {s : State p T} {log : Log p T}
    (h : Run (step p) (initial p mHost) as s log) (hshipped : ShippedOnly as) (start length : T) :
    (within start length (sentTimes log)).length =
      (within start length (taskTimes log)).length +
        (within start length (implTimes log)).length := by
  induction h with
  | nil => rfl
  | snoc hr hs ih =>
    have hbefore := ih fun a ha => hshipped a (List.mem_append_left _ ha)
    have hlast := hshipped _ (List.mem_append_right _ (List.mem_singleton_self _))
    rw [sentTimes_append, taskTimes_append, implTimes_append, times_of_step hlast hs]
    simp only [within_append, List.length_append]
    omega

/-! ### The pace of each loop -/

/- Both loops have kept their distances. -/
structure BothPaced (s : State p T) (log : Log p T) : Prop where
  task : Paced (cTimeoutMs : T) (taskTimes log) (taskWake s.now s.task)
  impl : Paced ((1000 : ℕ) : T) (implTimes log) (implWake s.now s.impl)

variable [IsStrictOrderedRing T]

theorem le_implWake_implAnswered (t : T) (status : RequestStatus) :
    t ≤ implWake t (implAnswered t status) := by
  unfold implAnswered
  split
  · exact le_refl t
  · exact le_add_of_nonneg_right (Nat.cast_nonneg 1000)

theorem taskPaced_move {ts : List T} {c c' : Client HandlerType} {now t : T}
    {task task' : TaskAt p.mSubscriber.length T}
    {es : List (ProgramEvent HandlerType p.mSubscriber.length)} (hnow : now ≤ t)
    (h : Paced (cTimeoutMs : T) ts (taskWake now task))
    (hm : TaskMove p.mSubscriber c t task c' task' es) :
    Paced (cTimeoutMs : T) (ts ++ @taskTimes _ _ p (es.map fun e => (t, e)))
      (taskWake t task') := by
  have hpause : t ≤ t + (cTimeoutMs : T) := le_add_of_nonneg_right (Nat.cast_nonneg cTimeoutMs)
  cases hm with
  | sent i hn => exact h.fire (Nat.cast_nonneg cTimeoutMs) hnow
  | answer i wake hw => exact h.pass (hnow.trans hpause)
  | next i wake hw => exact h.pass (le_trans hw (le_taskWake_fromEntry _ _ t))
  | round hf => exact h.pass (le_trans hnow (le_taskWake_fromEntry _ _ t))
  | _ => exact h.pass hnow

theorem implPaced_move {ts : List T} {myAsyncLambda : HandlerType} {c c' : Client HandlerType}
    {now t : T} {impl impl' : ImplAt T}
    {es : List (ProgramEvent HandlerType p.mSubscriber.length)} (hnow : now ≤ t)
    (h : Paced ((1000 : ℕ) : T) ts (implWake now impl))
    (hm : ImplMove myAsyncLambda c t impl c' impl' es) :
    Paced ((1000 : ℕ) : T) (ts ++ @implTimes _ _ p (es.map fun e => (t, e)))
      (implWake t impl') := by
  cases hm with
  | sent hn => exact h.fire (Nat.cast_nonneg 1000) hnow
  | failed hf => exact h.pass (le_trans hnow (le_implWake_implAnswered t _))
  | stopped hf => exact h.pass (le_trans hnow (le_implWake_implAnswered t _))
  | answer wake hw => exact h.pass (le_trans hnow (le_implWake_implAnswered t _))
  | next wake hw => exact h.pass hw
  | _ => exact h.pass hnow

theorem bothPaced_step {s s' : State p T} {log es : Log p T} {a : T × ProgramAction HandlerType}
    (h : BothPaced s log) (hs : step p s a = some (s', es)) : BothPaced s' (log ++ es) := by
  obtain ⟨t, a⟩ := a
  obtain ⟨hnow, es, hm, rfl⟩ := move_of_step hs
  have htask := h.task.pass (taskWake_le hnow s.task)
  have himpl := h.impl.pass (implWake_le hnow s.impl)
  refine ⟨?_, ?_⟩
  · rw [taskTimes_append]
    cases hm with
    | launchTask hl hr =>
      rw [hl] at htask
      exact htask
    | launchImpl => exact htask
    | client a c es hc =>
      rw [(times_of_client t es).1]
      exact htask
    | task c task es hm => exact taskPaced_move hnow h.task hm
    | impl c impl es hm =>
      rw [hm.times.2]
      exact htask
  · rw [implTimes_append]
    cases hm with
    | launchTask => exact himpl
    | launchImpl hl hr =>
      rw [hl] at himpl
      exact himpl
    | client a c es hc =>
      rw [(times_of_client t es).2]
      exact himpl
    | task c task es hm =>
      rw [hm.times.2]
      exact himpl
    | impl c impl es hm => exact implPaced_move hnow h.impl hm

theorem bothPaced_of_run [Inhabited HandlerType] {mHost : Str}
    {as : List (T × ProgramAction HandlerType)} {s : State p T} {log : Log p T}
    (h : Run (step p) (initial p mHost) as s log) : BothPaced s log :=
  h.invariant BothPaced ⟨paced_nil _ _, paced_nil _ _⟩ fun _ _ _ _ _ => bothPaced_step

def minute : T := ((60000 : ℕ) : T)

/-- The task alone keeps the limit, and `ClientImpl` half of it. -/
theorem rate_of_each [Inhabited HandlerType] {mHost : Str}
    {as : List (T × ProgramAction HandlerType)} {s : State p T} {log : Log p T}
    (h : Run (step p) (initial p mHost) as s log) (start : T) :
    (within start minute (taskTimes log)).length ≤ cBinanceLimitRequestsPerMin ∧
      (within start minute (implTimes log)).length ≤ 60 := by
  obtain ⟨htask, himpl⟩ := bothPaced_of_run h
  have hminute : (minute : T) = ((120 : ℕ) : T) * (cTimeoutMs : T) := by
    rw [← Nat.cast_mul]
    rfl
  have hminute' : (minute : T) = ((60 : ℕ) : T) * ((1000 : ℕ) : T) := by
    rw [← Nat.cast_mul]
    rfl
  refine ⟨?_, ?_⟩
  · rw [hminute]
    exact htask.within_le (Nat.cast_pos.mpr (by decide)) start 120
  · rw [hminute']
    exact himpl.within_le (Nat.cast_pos.mpr (by decide)) start 60

end RestClient.Program
