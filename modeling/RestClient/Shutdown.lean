import RestClient.PromptStop

/-!
# The end of the program (main.cpp, rest_client.cpp)

`main` launches `ClientImpl`, `run()` launches the subscriber task and runs the `io_context`.
When the loop has returned `main` waits a second for each of the two threads and leaves its
scope, which joins them: the destructor of a future of `std::async` waits for its thread. An
exception leaves the scope at once where `main` catches it, and else ends the program.
-/

namespace RestClient
open Machine
variable {HandlerType T : Type}

/- What `main` and the `RestClient` own. -/
inductive Owned where
  | clientFuture
  | mFutTasks
  | mSubscriber
  | mSignal
  | mStopSubscriber
  | mTasks
  | mSession
  | mPort
  | mHost
  | mCtx
  | mIoc
  | decoder
  deriving DecidableEq, Repr

/- The reverse of the declarations in `main`, and within `restClient` of its members. -/
def teardown : List Owned :=
  [.clientFuture, .mFutTasks, .mSubscriber, .mSignal, .mStopSubscriber, .mTasks, .mSession, .mPort,
    .mHost, .mCtx, .mIoc, .decoder]

/- Where `main` stands; it waits for a thread up to an instant. -/
inductive MainAt (T : Type) where
  | constructing
  | launching
  | entering
  | looping
  | waitTask (deadline : T)
  | waitImpl (deadline : T)
  | leaving (left : List Owned)
  | returned
  | terminated

structure Process (HandlerType : Type) (n : ℕ) (T : Type) where
  program : Program HandlerType n T
  main : MainAt T

/- `choice` is the result of `SSL_set_tlsext_host_name`, and for an exception of a callback
whether it derives from `std::exception`. -/
inductive ProcessAction (HandlerType : Type) where
  | main (choice : Bool)
  | handler (a : Action HandlerType)
  | task
  | impl

namespace TaskAt

/- What the next step of the task uses. -/
def uses {n : ℕ} : TaskAt n T → List Owned
  | .notLaunched | .ended => []
  | .testStop => [.mStopSubscriber]
  | .testError => [.mSession, .mSubscriber]
  | .request _ => [.mSubscriber]
  | .calling _ => [.mSubscriber, .mSession, .mIoc]
  | .refused .. => [.mSubscriber, .mSession]
  | .pause .. => [.mSubscriber]

def isEnded {n : ℕ} : TaskAt n T → Bool
  | .ended => true
  | _ => false

end TaskAt

namespace ImplAt

def uses : ImplAt T → List Owned
  | .notLaunched | .ended | .pause _ => []
  | .testError => [.mSession]
  | .testStop => [.mStopSubscriber]
  | .calling => [.mSession, .mIoc]
  | .refused _ => [.mSession]

def isEnded : ImplAt T → Bool
  | .ended => true
  | _ => false

def launched : ImplAt T → Bool
  | .notLaunched => false
  | _ => true

end ImplAt

namespace Process

abbrev State (p : Shipped HandlerType) (T : Type) := Process HandlerType p.mSubscriber.length T

variable {p : Shipped HandlerType} [CommRing T] [LinearOrder T]

def initial [Inhabited HandlerType] (p : Shipped HandlerType) (mHost : Str) : State p T :=
  ⟨Program.initial p mHost, .constructing⟩

/- The destructor of a future waits for its thread. -/
def canDestroy (s : State p T) : Owned → Bool
  | .clientFuture => s.program.impl.isEnded
  | .mFutTasks => s.program.task.isEnded
  | _ => true

/- What `main` does next: a step of the program, or one of its own. -/
def mainStep (s : State p T) (t : T) (choice : Bool) :
    Option (Option (ProgramAction HandlerType) × MainAt T) :=
  match s.main with
  | .constructing => some (some (.client (.sessionRun choice)), .launching)
  | .launching => some (some .launchImpl, .entering)
  | .entering => some (some .launchTask, .looping)
  | .looping =>
    match s.program.client.loop with
    | .notStarted => some (some (.client .iocRun), .looping)
    | .running => none
    | .returned => some (none, .waitTask (t + ((1000 : ℕ) : T)))
    -- a `std::string` is not caught
    | .threw (.bufferFull _) => some (none, .terminated)
    | .threw .callback => some (none, if choice then .leaving teardown else .terminated)
  | .waitTask d =>
    if s.program.task.isEnded ∨ d ≤ t then some (none, .waitImpl (t + ((1000 : ℕ) : T))) else none
  | .waitImpl d =>
    if s.program.impl.isEnded ∨ d ≤ t then some (none, .leaving teardown) else none
  | .leaving [] => some (none, .returned)
  | .leaving (o :: left) => if canDestroy s o then some (none, .leaving left) else none
  | .returned => none
  | .terminated => none

def running : MainAt T → Bool
  | .returned | .terminated => false
  | _ => true

/- The handlers are executed by `main` in the loop. -/
def inLoop : MainAt T → Bool
  | .looping => true
  | _ => false

def step (p : Shipped HandlerType) : Step (State p T) (T × ProcessAction HandlerType)
    (T × ProgramEvent HandlerType p.mSubscriber.length)
  | s, (t, .main choice) =>
    if s.program.now ≤ t then
      (mainStep s t choice).bind fun
        | (some a, main) =>
          (Program.step p s.program (t, a)).map fun r => (⟨r.1, main⟩, r.2)
        | (none, main) => some (⟨{ s.program with now := t }, main⟩, [])
    else none
  | s, (t, .handler a) =>
    if inLoop s.main && !Program.startsLoop a then
      (Program.step p s.program (t, .client a)).map fun r => (⟨r.1, s.main⟩, r.2)
    else none
  | s, (t, .task) =>
    if running s.main then
      (Program.step p s.program (t, .task)).map fun r => (⟨r.1, s.main⟩, r.2)
    else none
  | s, (t, .impl) =>
    if running s.main then
      (Program.step p s.program (t, .impl)).map fun r => (⟨r.1, s.main⟩, r.2)
    else none

/- The object has been destroyed. -/
def Destroyed (o : Owned) : MainAt T → Prop
  | .leaving left => o ∉ left
  | .returned => True
  | _ => False

/-! ### What a step can do -/

inductive Move (p : Shipped HandlerType) (s : State p T) (t : T) :
    ProcessAction HandlerType → State p T →
      List (ProgramEvent HandlerType p.mSubscriber.length) → Prop
  | own (choice main) (hm : mainStep s t choice = some (none, main)) :
      Move p s t (.main choice) ⟨{ s.program with now := t }, main⟩ []
  | advance (choice a main program es) (hm : mainStep s t choice = some (some a, main))
      (hs : Program.Move p s.program t a program es) : Move p s t (.main choice) ⟨program, main⟩ es
  | handler (a c es) (hl : s.main = .looping) (hs : Client.step s.program.client a = some (c, es)) :
      Move p s t (.handler a) ⟨{ s.program with client := c, now := t }, s.main⟩ (es.map .client)
  | task (c task es) (hr : running s.main = true)
      (hm : Program.TaskMove p.mSubscriber s.program.client t s.program.task c task es) :
      Move p s t .task ⟨{ s.program with client := c, task := task, now := t }, s.main⟩ es
  | impl (c impl es) (hr : running s.main = true)
      (hm : Program.ImplMove p.myAsyncLambda s.program.client t s.program.impl c impl es) :
      Move p s t .impl ⟨{ s.program with client := c, impl := impl, now := t }, s.main⟩ es

theorem move_of_step {p : Shipped HandlerType} {s s' : State p T} {t : T}
    {a : ProcessAction HandlerType} {es : Program.Log p T} (h : step p s (t, a) = some (s', es)) :
    s.program.now ≤ t ∧ ∃ es', Move p s t a s' es' ∧ es = es'.map fun e => (t, e) := by
  cases a with
  | main choice =>
    obtain ⟨hnow, h⟩ := Option.ite_none_right_eq_some.mp h
    obtain ⟨⟨own, main⟩, hm, h⟩ := Option.bind_eq_some_iff.mp h
    cases own with
    | none =>
      cases h
      exact ⟨hnow, [], .own choice main hm, rfl⟩
    | some a =>
      obtain ⟨⟨program, es'⟩, hs, hr⟩ := Option.map_eq_some_iff.mp h
      cases hr
      obtain ⟨-, es', hmove, rfl⟩ := Program.move_of_step hs
      exact ⟨hnow, es', .advance choice a main program es' hm hmove, rfl⟩
  | handler a =>
    obtain ⟨hl, h⟩ := Option.ite_none_right_eq_some.mp h
    obtain ⟨⟨program, es'⟩, hs, hr⟩ := Option.map_eq_some_iff.mp h
    cases hr
    obtain ⟨hnow, es', hmove, rfl⟩ := Program.move_of_step hs
    have hloop : s.main = .looping := by
      cases hmain : s.main <;> rw [hmain] at hl <;> first | rfl | cases hl
    cases hmove with
    | client a c es hc => exact ⟨hnow, _, .handler a c es hloop hc, rfl⟩
  | task =>
    obtain ⟨hrun, h⟩ := Option.ite_none_right_eq_some.mp h
    obtain ⟨⟨program, es'⟩, hs, hr⟩ := Option.map_eq_some_iff.mp h
    cases hr
    obtain ⟨hnow, es', hmove, rfl⟩ := Program.move_of_step hs
    cases hmove with
    | task c task es hm => exact ⟨hnow, _, .task _ _ _ hrun hm, rfl⟩
  | impl =>
    obtain ⟨hrun, h⟩ := Option.ite_none_right_eq_some.mp h
    obtain ⟨⟨program, es'⟩, hs, hr⟩ := Option.map_eq_some_iff.mp h
    cases hr
    obtain ⟨hnow, es', hmove, rfl⟩ := Program.move_of_step hs
    cases hmove with
    | impl c impl es hm => exact ⟨hnow, _, .impl _ _ _ hrun hm, rfl⟩

/-! ### The threads and the loop -/

omit [CommRing T] [LinearOrder T] in
theorem fromEntry_at (n i : ℕ) : (Program.fromEntry n i : TaskAt n T).launched = true ∧
    (Program.fromEntry n i : TaskAt n T).isEnded = false := by
  unfold Program.fromEntry
  split <;> exact ⟨rfl, rfl⟩

/- The task ends when it has seen a flag. -/
theorem task_ended {mSubscriber : Subscribers HandlerType} {c c' : Client HandlerType} {t : T}
    {task task' : TaskAt mSubscriber.length T}
    {es : List (ProgramEvent HandlerType mSubscriber.length)}
    (h : Program.TaskMove mSubscriber c t task c' task' es) :
    task'.launched = true ∧ (task'.isEnded = true → Client.FlagSet c') := by
  cases h with
  | stopped hf => exact ⟨rfl, fun _ => .inl hf⟩
  | failed hf => exact ⟨rfl, fun _ => .inr hf⟩
  | round => exact ⟨(fromEntry_at _ _).1, fun h => absurd ((fromEntry_at _ _).2.symm.trans h) nofun⟩
  | next => exact ⟨(fromEntry_at _ _).1, fun h => absurd ((fromEntry_at _ _).2.symm.trans h) nofun⟩
  | unstopped | call | sent | refuse | answer => exact ⟨rfl, nofun⟩

theorem impl_ended {n : ℕ} {myAsyncLambda : HandlerType} {c c' : Client HandlerType} {t : T}
    {impl impl' : ImplAt T} {es : List (ProgramEvent HandlerType n)}
    (h : Program.ImplMove myAsyncLambda c t impl c' impl' es) :
    impl'.launched = true ∧ (impl'.isEnded = true → Client.FlagSet c') := by
  cases h with
  | failed hf => exact ⟨rfl, fun _ => .inr hf⟩
  | stopped hf => exact ⟨rfl, fun _ => .inl hf⟩
  | unfailed | unstopped | sent | refuse | answer | next => exact ⟨rfl, nofun⟩

/- A thread that has ended does nothing more. -/
theorem task_not_ended {mSubscriber : Subscribers HandlerType} {c c' : Client HandlerType} {t : T}
    {task task' : TaskAt mSubscriber.length T}
    {es : List (ProgramEvent HandlerType mSubscriber.length)}
    (h : Program.TaskMove mSubscriber c t task c' task' es) : ¬ task.isEnded = true := by
  cases h <;> exact nofun

theorem impl_not_ended {n : ℕ} {myAsyncLambda : HandlerType} {c c' : Client HandlerType} {t : T}
    {impl impl' : ImplAt T} {es : List (ProgramEvent HandlerType n)}
    (h : Program.ImplMove myAsyncLambda c t impl c' impl' es) : ¬ impl.isEnded = true := by
  cases h <;> exact nofun

/- An exception leaves the loop before anything has stopped it. -/
theorem threw_step {c c' : Client HandlerType} {a : Action HandlerType}
    {es : List (Event HandlerType)} (h : Client.FlagsFollow c)
    (hthrew : ∀ e, c.loop = .threw e → ¬ Client.FlagSet c)
    (hs : Client.step c a = some (c', es)) : ∀ e, c'.loop = .threw e → ¬ Client.FlagSet c' := by
  intro e hl
  cases Client.move_of_step hs with
  | refuse request hdl rest hc => exact h.clear hc.2.1
  | callbackThrow hl hi => exact h.clear (h.callback hi)
  | iocRun => cases hl
  | iocReturn => cases hl
  | setupFailed op ec ctx hc => exact absurd (hc.1.symm.trans hl) nofun
  | readFailed ec response hc => exact absurd (hc.1.symm.trans hl) nofun
  | writeFailed op ec hc => exact absurd (hc.1.symm.trans hl) nofun
  | signal hc => exact absurd (hc.1.symm.trans hl) nofun
  | _ => exact hthrew e hl

/-! ### What holds throughout -/

/- Where `main` stands tells where the others do. -/
def Phase (s : State p T) : Prop :=
  let c := s.program.client
  let launched := s.program.task.launched = true ∧ s.program.impl.launched = true
  match s.main with
  | .constructing => c.runReturned = false ∧ c.loop = .notStarted ∧
      s.program.task = .notLaunched ∧ s.program.impl = .notLaunched
  | .launching => c.runReturned = true ∧ c.loop = .notStarted ∧
      s.program.task = .notLaunched ∧ s.program.impl = .notLaunched
  | .entering => c.runReturned = true ∧ c.loop = .notStarted ∧
      s.program.task = .notLaunched ∧ s.program.impl.launched = true
  | .looping => c.runReturned = true ∧ launched
  | .waitTask _ | .waitImpl _ => c.loop = .returned ∧ launched
  | .leaving left => (c.loop = .returned ∨ c.loop = .threw .callback) ∧ launched ∧
      left <:+ teardown ∧
      (.clientFuture ∉ left → s.program.impl.isEnded = true) ∧
      (.mFutTasks ∉ left → s.program.task.isEnded = true)
  | .returned => Client.LoopLeft c ∧ s.program.impl.isEnded = true ∧ s.program.task.isEnded = true
  | .terminated => ∃ e, c.loop = .threw e

structure Held (s : State p T) : Prop where
  flags : Client.FlagsFollow s.program.client
  threw : ∀ e, s.program.client.loop = .threw e → ¬ Client.FlagSet s.program.client
  taskEnded : s.program.task.isEnded = true → Client.FlagSet s.program.client
  implEnded : s.program.impl.isEnded = true → Client.FlagSet s.program.client
  phase : Phase s

omit [LinearOrder T] in
theorem initial_held [Inhabited HandlerType] (mHost : Str) :
    Held (initial p mHost : State p T) where
  flags := Client.initial_flagsFollow mHost
  threw := nofun
  taskEnded := nofun
  implEnded := nofun
  phase := ⟨rfl, rfl, rfl, rfl⟩

/- The scope is left, and nothing of it has been destroyed. -/
omit [CommRing T] [LinearOrder T] in
theorem phase_teardown {program : Program HandlerType p.mSubscriber.length T}
    (hl : program.client.loop = .returned ∨ program.client.loop = .threw .callback)
    (hlaunched : program.task.launched = true ∧ program.impl.launched = true) :
    Phase (⟨program, .leaving teardown⟩ : State p T) :=
  ⟨hl, hlaunched, List.suffix_refl _, fun h => absurd (by decide) h, fun h => absurd (by decide) h⟩

theorem phase_own {s : State p T} {t : T} {choice : Bool} {main : MainAt T} (h : Phase s)
    (hm : mainStep s t choice = some (none, main)) :
    Phase (⟨{ s.program with now := t }, main⟩ : State p T) := by
  unfold mainStep at hm
  unfold Phase at h
  cases hmain : s.main with
  | constructing | launching | entering =>
    rw [hmain] at hm
    cases hm
  | looping =>
    rw [hmain] at h hm
    cases hl : s.program.client.loop with
    | notStarted | running =>
      rw [hl] at hm
      cases hm
    | returned =>
      rw [hl] at hm
      cases hm
      exact ⟨hl, h.2⟩
    | threw e =>
      rw [hl] at hm
      cases e with
      | bufferFull what =>
        cases hm
        exact ⟨_, hl⟩
      | callback =>
        cases choice with
        | true =>
          cases hm
          exact phase_teardown (.inr hl) h.2
        | false =>
          cases hm
          exact ⟨_, hl⟩
  | waitTask d =>
    rw [hmain] at h hm
    obtain ⟨-, hm⟩ := Option.ite_none_right_eq_some.mp hm
    cases hm
    exact h
  | waitImpl d =>
    rw [hmain] at h hm
    obtain ⟨-, hm⟩ := Option.ite_none_right_eq_some.mp hm
    cases hm
    exact phase_teardown (.inl h.1) h.2
  | leaving left =>
    rw [hmain] at h hm
    obtain ⟨hl, hlaunched, hsuffix, himpl, htask⟩ := h
    cases left with
    | nil =>
      cases hm
      exact ⟨hl.imp_right fun hthrew => ⟨_, hthrew⟩, himpl List.not_mem_nil, htask List.not_mem_nil⟩
    | cons o left =>
      obtain ⟨hfree, hm⟩ := Option.ite_none_right_eq_some.mp hm
      cases hm
      refine ⟨hl, hlaunched, (List.suffix_cons o left).trans hsuffix, fun hnot => ?_, fun hnot => ?_⟩
      · by_cases ho : o = .clientFuture
        · subst ho
          exact hfree
        · exact himpl (List.not_mem_cons_of_ne_of_not_mem (Ne.symm ho) hnot)
      · by_cases ho : o = .mFutTasks
        · subst ho
          exact hfree
        · exact htask (List.not_mem_cons_of_ne_of_not_mem (Ne.symm ho) hnot)
  | returned | terminated =>
    rw [hmain] at hm
    cases hm

theorem held_own {s : State p T} {t : T} {choice : Bool} {main : MainAt T} (h : Held s)
    (hm : mainStep s t choice = some (none, main)) :
    Held (⟨{ s.program with now := t }, main⟩ : State p T) :=
  ⟨h.flags, h.threw, h.taskEnded, h.implEnded, phase_own h.phase hm⟩

/- `main` launches the threads and enters the loop. -/
theorem held_advance {s : State p T} {t : T} {choice : Bool} {main : MainAt T}
    {a : ProgramAction HandlerType} {program : Program HandlerType p.mSubscriber.length T}
    {es : List (ProgramEvent HandlerType p.mSubscriber.length)} (h : Held s)
    (hm : mainStep s t choice = some (some a, main)) (hs : Program.Move p s.program t a program es) :
    Held (⟨program, main⟩ : State p T) := by
  have hphase := h.phase
  unfold mainStep at hm
  unfold Phase at hphase
  cases hmain : s.main with
  | constructing =>
    rw [hmain] at hphase hm
    cases hm
    cases hs with
    | client a c es hc =>
      have hflags := Client.flagsFollow_step h.flags hc
      obtain ⟨hr, hl, htask, himpl⟩ := hphase
      cases Client.move_of_step hc with
      | hostNameFailed =>
        exact ⟨hflags, h.threw, h.taskEnded, h.implEnded, rfl, hl, htask, himpl⟩
      | hostNameSet =>
        exact ⟨hflags, h.threw, h.taskEnded, h.implEnded, rfl, hl, htask, himpl⟩
  | launching =>
    rw [hmain] at hphase hm
    cases hm
    obtain ⟨hr, hl, htask, himpl⟩ := hphase
    cases hs with
    | launchImpl => exact ⟨h.flags, h.threw, h.taskEnded, nofun, hr, hl, htask, rfl⟩
  | entering =>
    rw [hmain] at hphase hm
    cases hm
    obtain ⟨hr, hl, htask, himpl⟩ := hphase
    cases hs with
    | launchTask => exact ⟨h.flags, h.threw, nofun, h.implEnded, hr, rfl, himpl⟩
  | looping =>
    rw [hmain] at hphase hm
    cases hl : s.program.client.loop with
    | notStarted =>
      rw [hl] at hm
      cases hm
      cases hs with
      | client a c es hc =>
        have hflags := Client.flagsFollow_step h.flags hc
        cases Client.move_of_step hc with
        | iocRun => exact ⟨hflags, nofun, h.taskEnded, h.implEnded, hphase⟩
    | running | returned =>
      rw [hl] at hm
      cases hm
    | threw e =>
      rw [hl] at hm
      cases e <;> cases hm
  | waitTask d | waitImpl d =>
    rw [hmain] at hm
    obtain ⟨-, hm⟩ := Option.ite_none_right_eq_some.mp hm
    cases hm
  | leaving left =>
    rw [hmain] at hm
    cases left with
    | nil => cases hm
    | cons o left =>
      obtain ⟨-, hm⟩ := Option.ite_none_right_eq_some.mp hm
      cases hm
  | returned | terminated =>
    rw [hmain] at hm
    cases hm

omit [CommRing T] [LinearOrder T] in
theorem held_handler {s : State p T} {t : T} {a : Action HandlerType} {c : Client HandlerType}
    {es : List (Event HandlerType)} (h : Held s) (hl : s.main = .looping)
    (hs : Client.step s.program.client a = some (c, es)) :
    Held (⟨{ s.program with client := c, now := t }, s.main⟩ : State p T) := by
  have hkept := Client.flags_kept hs
  have hflag : Client.FlagSet s.program.client → Client.FlagSet c :=
    Or.imp hkept.1 hkept.2
  refine ⟨Client.flagsFollow_step h.flags hs, threw_step h.flags h.threw hs,
    fun he => hflag (h.taskEnded he), fun he => hflag (h.implEnded he), ?_⟩
  have hphase := h.phase
  unfold Phase at hphase ⊢
  rw [hl] at hphase ⊢
  refine ⟨?_, hphase.2⟩
  have hr : s.program.client.runReturned = true := hphase.1
  cases Client.move_of_step hs <;> first | rfl | exact hr

theorem phase_task {s : State p T} {t : T} {c : Client HandlerType}
    {task : TaskAt p.mSubscriber.length T}
    {es : List (ProgramEvent HandlerType p.mSubscriber.length)} (h : Phase s)
    (hm : Program.TaskMove p.mSubscriber s.program.client t s.program.task c task es) :
    Phase (⟨{ s.program with client := c, task := task, now := t }, s.main⟩ : State p T) := by
  obtain ⟨hlaunched, -⟩ := task_ended hm
  have hnot₀ := task_not_ended hm
  obtain ⟨posted, rfl⟩ := hm.client_eq
  unfold Phase at h ⊢
  cases hmain : s.main <;> rw [hmain] at h
  case constructing | launching | entering =>
    obtain ⟨-, -, htask, -⟩ := h
    rw [htask] at hm
    cases hm
  case looping => exact ⟨h.1, hlaunched, h.2.2⟩
  case waitTask | waitImpl => exact ⟨h.1, hlaunched, h.2.2⟩
  case leaving left =>
    obtain ⟨hl, hboth, hsuffix, himpl, htask⟩ := h
    exact ⟨hl, ⟨hlaunched, hboth.2⟩, hsuffix, himpl, fun hnot => absurd (htask hnot) hnot₀⟩
  case returned => exact absurd h.2.2 hnot₀
  case terminated => exact h

theorem phase_impl {s : State p T} {t : T} {c : Client HandlerType} {impl : ImplAt T}
    {es : List (ProgramEvent HandlerType p.mSubscriber.length)} (h : Phase s)
    (hm : Program.ImplMove p.myAsyncLambda s.program.client t s.program.impl c impl es) :
    Phase (⟨{ s.program with client := c, impl := impl, now := t }, s.main⟩ : State p T) := by
  obtain ⟨hlaunched, -⟩ := impl_ended hm
  have hnot₀ := impl_not_ended hm
  obtain ⟨posted, rfl⟩ := hm.client_eq
  unfold Phase at h ⊢
  cases hmain : s.main <;> rw [hmain] at h
  case constructing | launching =>
    obtain ⟨-, -, -, himpl⟩ := h
    rw [himpl] at hm
    cases hm
  case entering => exact ⟨h.1, h.2.1, h.2.2.1, hlaunched⟩
  case looping => exact ⟨h.1, h.2.1, hlaunched⟩
  case waitTask | waitImpl => exact ⟨h.1, h.2.1, hlaunched⟩
  case leaving left =>
    obtain ⟨hl, hboth, hsuffix, himpl, htask⟩ := h
    exact ⟨hl, ⟨hboth.1, hlaunched⟩, hsuffix, fun hnot => absurd (himpl hnot) hnot₀, htask⟩
  case returned => exact absurd h.2.1 hnot₀
  case terminated => exact h

/- A thread changes nothing of the loop and of the flags. -/
omit [CommRing T] [LinearOrder T] in
theorem held_posted {s s' : State p T} {posted : List (Str × HandlerType)} (h : Held s)
    (hc : s'.program.client = { s.program.client with posted := posted })
    (htask : s'.program.task.isEnded = true → Client.FlagSet s.program.client)
    (himpl : s'.program.impl.isEnded = true → Client.FlagSet s.program.client)
    (hphase : Phase s') : Held s' := by
  refine ⟨?_, ?_, ?_, ?_, hphase⟩ <;> rw [hc]
  · exact ⟨h.flags.stopped, h.flags.clear, h.flags.callback, h.flags.signalled, h.flags.returned⟩
  · exact h.threw
  · exact htask
  · exact himpl

theorem held_step {s s' : State p T} {a : T × ProcessAction HandlerType} {es : Program.Log p T}
    (h : Held s) (hs : step p s a = some (s', es)) : Held s' := by
  obtain ⟨t, a⟩ := a
  obtain ⟨-, es', hm, -⟩ := move_of_step hs
  cases hm with
  | own choice main hm => exact held_own h hm
  | advance choice a main program es hm hp => exact held_advance h hm hp
  | handler a c es hl hc => exact held_handler h hl hc
  | task c task es hr hm =>
    have hflag := (task_ended hm).2
    have hphase := phase_task h.phase hm
    obtain ⟨posted, rfl⟩ := hm.client_eq
    exact held_posted h rfl hflag h.implEnded hphase
  | impl c impl es hr hm =>
    have hflag := (impl_ended hm).2
    have hphase := phase_impl h.phase hm
    obtain ⟨posted, rfl⟩ := hm.client_eq
    exact held_posted h rfl h.taskEnded hflag hphase

theorem held_of_run [Inhabited HandlerType] {mHost : Str}
    {as : List (T × ProcessAction HandlerType)} {s : State p T} {log : Program.Log p T}
    (h : Run (step p) (initial p mHost) as s log) : Held s := by
  refine h.invariant (fun s _ => Held s) (initial_held mHost) ?_
  intro s log a s' es hheld hs
  exact held_step hheld hs

/-! ### Nothing is used after it has been destroyed -/

/- What is destroyed behind the future of a thread is all that the thread uses. -/
theorem behind_future : ∀ left ∈ teardown.tails,
    (.mFutTasks ∈ left → ∀ o ∈ [Owned.mSubscriber, .mStopSubscriber, .mSession, .mIoc], o ∈ left) ∧
      (.clientFuture ∈ left → ∀ o ∈ [Owned.mStopSubscriber, .mSession, .mIoc], o ∈ left) := by
  decide

omit [CommRing T] [LinearOrder T] in
theorem task_uses {n : ℕ} {task : TaskAt n T} {o : Owned} (h : o ∈ task.uses) :
    task.isEnded = false ∧ o ∈ [Owned.mSubscriber, .mStopSubscriber, .mSession, .mIoc] := by
  cases task <;> simp only [TaskAt.uses, List.mem_cons, List.not_mem_nil, or_false] at h <;>
    refine ⟨rfl, ?_⟩ <;> rcases h with rfl | rfl | rfl <;> decide

omit [CommRing T] [LinearOrder T] in
theorem impl_uses {impl : ImplAt T} {o : Owned} (h : o ∈ impl.uses) :
    impl.isEnded = false ∧ o ∈ [Owned.mStopSubscriber, .mSession, .mIoc] := by
  cases impl <;> simp only [ImplAt.uses, List.mem_cons, List.not_mem_nil, or_false] at h <;>
    refine ⟨rfl, ?_⟩ <;> rcases h with rfl | rfl <;> decide

/-- Whatever a thread uses in its next step, in every state of every run, has not been
destroyed; and when `main` has returned both threads have ended. -/
theorem nothing_used_after_teardown [Inhabited HandlerType] (p : Shipped HandlerType)
    (mHost : Str) (as : List (T × ProcessAction HandlerType)) (s : State p T)
    (log : Program.Log p T) (h : Run (step p) (initial p mHost) as s log) :
    (∀ o ∈ s.program.task.uses, ¬ Destroyed o s.main) ∧
      (∀ o ∈ s.program.impl.uses, ¬ Destroyed o s.main) ∧
      (s.main = .returned → s.program.task.isEnded = true ∧ s.program.impl.isEnded = true) := by
  have hphase := (held_of_run h).phase
  unfold Phase at hphase
  cases hmain : s.main <;> rw [hmain] at hphase
  case leaving left =>
    obtain ⟨-, -, hsuffix, himpl, htask⟩ := hphase
    obtain ⟨hbehindTask, hbehindImpl⟩ := behind_future left ((List.mem_tails ..).mpr hsuffix)
    refine ⟨fun o ho hgone => ?_, fun o ho hgone => ?_, nofun⟩
    · obtain ⟨hnot, hused⟩ := task_uses ho
      have hleft : .mFutTasks ∈ left := by
        by_contra hjoined
        exact absurd (hnot.symm.trans (htask hjoined)) Bool.false_ne_true
      exact hgone (hbehindTask hleft o hused)
    · obtain ⟨hnot, hused⟩ := impl_uses ho
      have hleft : .clientFuture ∈ left := by
        by_contra hjoined
        exact absurd (hnot.symm.trans (himpl hjoined)) Bool.false_ne_true
      exact hgone (hbehindImpl hleft o hused)
  case returned =>
    obtain ⟨-, himpl, htask⟩ := hphase
    refine ⟨fun o ho _ => ?_, fun o ho _ => ?_, fun _ => ⟨htask, himpl⟩⟩
    · exact absurd ((task_uses ho).1.symm.trans htask) Bool.false_ne_true
    · exact absurd ((impl_uses ho).1.symm.trans himpl) Bool.false_ne_true
  all_goals exact ⟨fun o _ => id, fun o _ => id, nofun⟩

/- `main` up to the loop. -/
def opening : List (ℤ × ProcessAction ℕ) :=
  [(0, .main true), (0, .main true), (0, .main true), (1, .main true)]

/- SIGINT, and the end of `main` up to the destruction of the session. -/
theorem nothing_used_after_teardown_signal :
    let p : Shipped ℕ := ⟨mainSubscribers 0, 1⟩
    ∃ s : State p ℤ, s.main = .leaving [.mSession, .mPort, .mHost, .mCtx, .mIoc, .decoder] ∧
      ∀ o ∈ s.program.task.uses, ¬ Destroyed o s.main := by
  intro p
  let steps : List (ℤ × ProcessAction ℕ) := opening ++
    [(2, .handler .signal), (3, .handler .iocReturn), (4, .main true), (5, .task), (6, .main true),
      (7, .impl), (8, .impl), (9, .main true)] ++ List.replicate 6 (10, .main true)
  obtain ⟨s, log, hr, hmain⟩ := run_of_observed (step p) (initial p "h".toList) steps
    (fun r => match r.1.main with | .leaving left => left | _ => [])
    (show _ = some [.mSession, .mPort, .mHost, .mCtx, .mIoc, .decoder] by decide +kernel)
  refine ⟨s, ?_, (nothing_used_after_teardown p "h".toList steps s log hr).1⟩
  cases hs : s.main <;> rw [hs] at hmain <;> first | exact congrArg _ hmain | cases hmain

/-! ### Whether `main` returns -/

/- What the task has still to do once a flag is set. -/
def taskWork {n : ℕ} (c : Client HandlerType) : TaskAt n T → ℕ
  | .notLaunched | .ended => 0
  | .testStop => 2
  | .testError => if c.mError ≠ 0 then 1 else 4 * n + 3
  | .request i => 4 * (n - (i + 1)) + 6
  | .calling i => 4 * (n - (i + 1)) + 5
  | .refused i _ => 4 * (n - (i + 1)) + 4
  | .pause i _ => 4 * (n - (i + 1)) + 3

def implWork (c : Client HandlerType) : ImplAt T → ℕ
  | .notLaunched | .ended => 0
  | .testStop => if c.mStopSubscriber then 1 else 6
  | .testError => 2
  | .pause _ => 3
  | .refused _ => 4
  | .calling => 5

omit [CommRing T] [LinearOrder T] in
theorem taskWork_fromEntry {n : ℕ} (c : Client HandlerType) (i : ℕ) :
    taskWork c (Program.fromEntry n i : TaskAt n T) ≤ 4 * (n - i) + 2 := by
  unfold Program.fromEntry
  split
  · simp only [taskWork]
    omega
  · exact Nat.le_add_left _ _

theorem taskWork_step {mSubscriber : Subscribers HandlerType} {c c' : Client HandlerType} {t : T}
    {task task' : TaskAt mSubscriber.length T}
    {es : List (ProgramEvent HandlerType mSubscriber.length)} (hflag : Client.FlagSet c)
    (h : Program.TaskMove mSubscriber c t task c' task' es) : taskWork c' task' < taskWork c task := by
  cases h with
  | stopped hf => exact Nat.two_pos
  | unstopped hf =>
    have herror : c.mError ≠ 0 := hflag.resolve_left (by rw [hf]; exact Bool.false_ne_true)
    simp only [taskWork, if_pos herror]
    omega
  | failed hf =>
    simp only [taskWork, if_pos hf]
    omega
  | round hf =>
    refine Nat.lt_of_le_of_lt (taskWork_fromEntry c 0) ?_
    simp only [taskWork, hf, ne_eq, not_true_eq_false, if_false]
    omega
  | next i wake hw =>
    exact Nat.lt_of_le_of_lt (taskWork_fromEntry c (i + 1)) (Nat.lt_succ_self _)
  | call i | sent i | refuse i | answer i =>
    simp only [taskWork, Program.taskAnswered]
    omega

theorem implWork_step {n : ℕ} {myAsyncLambda : HandlerType} {c c' : Client HandlerType} {t : T}
    {impl impl' : ImplAt T} {es : List (ProgramEvent HandlerType n)} (hflag : Client.FlagSet c)
    (h : Program.ImplMove myAsyncLambda c t impl c' impl' es) : implWork c' impl' < implWork c impl := by
  cases h with
  | failed hf => exact Nat.two_pos
  | unfailed hf =>
    have hstop : c.mStopSubscriber = true := hflag.resolve_right (not_not_intro hf)
    simp only [implWork, if_pos hstop]
    omega
  | stopped hf =>
    simp only [implWork, if_pos hf]
    exact Nat.one_pos
  | unstopped hf =>
    simp only [implWork, hf]
    decide
  | sent => exact (show 3 < 5 by decide)
  | refuse | answer | next => exact Nat.lt_succ_self _

/- A thread that sleeps may go on later. -/
theorem task_enabled (mSubscriber : Subscribers HandlerType) (c : Client HandlerType) (now : T)
    {task : TaskAt mSubscriber.length T} (hl : task.launched = true) (he : ¬ task.isEnded = true) :
    ∃ t, now ≤ t ∧ ∃ r, Program.taskStep mSubscriber c t task = some r := by
  cases task with
  | notLaunched => cases hl
  | ended => exact absurd rfl he
  | testStop | testError | request => exact ⟨now, le_rfl, _, rfl⟩
  | calling i =>
    cases hn : c.mSessionReady with
    | true => exact ⟨now, le_rfl, _, Program.taskStep_sent mSubscriber now i hn⟩
    | false => exact ⟨now, le_rfl, _, Program.taskStep_refuse mSubscriber now i hn⟩
  | refused i wake => exact ⟨max now wake, le_max_left .., _, if_pos (le_max_right ..)⟩
  | pause i wake => exact ⟨max now wake, le_max_left .., _, if_pos (le_max_right ..)⟩

theorem impl_enabled (n : ℕ) (myAsyncLambda : HandlerType) (c : Client HandlerType) (now : T)
    {impl : ImplAt T} (hl : impl.launched = true) (he : ¬ impl.isEnded = true) :
    ∃ t, now ≤ t ∧ ∃ r, Program.implStep (n := n) myAsyncLambda c t impl = some r := by
  cases impl with
  | notLaunched => cases hl
  | ended => exact absurd rfl he
  | testError =>
    by_cases hf : c.mError ≠ 0
    · exact ⟨now, le_rfl, _, if_pos hf⟩
    · exact ⟨now, le_rfl, _, if_neg hf⟩
  | testStop =>
    by_cases hf : c.mStopSubscriber = true
    · exact ⟨now, le_rfl, _, if_pos hf⟩
    · exact ⟨now, le_rfl, _, if_neg hf⟩
  | calling =>
    cases hn : c.mSessionReady with
    | true => exact ⟨now, le_rfl, _, Program.implStep_sent n myAsyncLambda now hn⟩
    | false =>
      refine ⟨now, le_rfl, (c, .refused (now + ((1000 : ℕ) : T)),
        [.client (.requested Program.pingTarget myAsyncLambda .sessionNotReady)]), ?_⟩
      simp only [Program.implStep, Session.asyncRequest_notReady _ _ hn]
  | refused wake => exact ⟨max now wake, le_max_left .., _, if_pos (le_max_right ..)⟩
  | pause wake => exact ⟨max now wake, le_max_left .., _, if_pos (le_max_right ..)⟩

theorem task_can_end {s : State p T} (hrun : running s.main = true)
    (hflag : Client.FlagSet s.program.client) (hl : s.program.task.launched = true) :
    ∃ bs s' log, Run (step p) s bs s' log ∧ s'.main = s.main ∧
      s'.program.task.isEnded = true ∧ s'.program.impl = s.program.impl ∧
      Client.FlagSet s'.program.client ∧ s'.program.client.loop = s.program.client.loop := by
  generalize hn : taskWork s.program.client s.program.task = n
  induction n using Nat.strong_induction_on generalizing s with
  | _ n ih =>
    by_cases he : s.program.task.isEnded = true
    · exact ⟨[], s, [], .nil, rfl, he, rfl, hflag, rfl⟩
    · obtain ⟨t, hnow, ⟨c, task, es⟩, hs⟩ :=
        task_enabled p.mSubscriber s.program.client s.program.now hl he
      have hm := Program.taskMove_of_step hs
      have hstep : step p s (t, .task) =
          some (⟨{ s.program with client := c, task := task, now := t }, s.main⟩,
            es.map fun e => (t, e)) := by
        simp only [step, if_pos hrun, Program.step_task hnow hs, Option.map_some]
      have hless := taskWork_step hflag hm
      obtain ⟨hflag', hsame⟩ : Client.FlagSet c ∧ c.loop = s.program.client.loop := by
        obtain ⟨posted, rfl⟩ := hm.client_eq
        exact ⟨hflag, rfl⟩
      obtain ⟨bs, s', log, hr, hmain, hended, himpl, hset, hloop⟩ :=
        ih _ (hn ▸ hless) (s := ⟨{ s.program with client := c, task := task, now := t }, s.main⟩)
          hrun hflag' (task_ended hm).1 rfl
      exact ⟨_, s', _, (Run.single hstep).append hr, hmain, hended, himpl, hset, hloop.trans hsame⟩

theorem impl_can_end {s : State p T} (hrun : running s.main = true)
    (hflag : Client.FlagSet s.program.client) (hl : s.program.impl.launched = true) :
    ∃ bs s' log, Run (step p) s bs s' log ∧ s'.main = s.main ∧
      s'.program.impl.isEnded = true ∧ s'.program.task = s.program.task ∧
      s'.program.client.loop = s.program.client.loop := by
  generalize hn : implWork s.program.client s.program.impl = n
  induction n using Nat.strong_induction_on generalizing s with
  | _ n ih =>
    by_cases he : s.program.impl.isEnded = true
    · exact ⟨[], s, [], .nil, rfl, he, rfl, rfl⟩
    · obtain ⟨t, hnow, ⟨c, impl, es⟩, hs⟩ := impl_enabled p.mSubscriber.length p.myAsyncLambda
        s.program.client s.program.now hl he
      have hm := Program.implMove_of_step hs
      have hstep : step p s (t, .impl) =
          some (⟨{ s.program with client := c, impl := impl, now := t }, s.main⟩,
            es.map fun e => (t, e)) := by
        simp only [step, if_pos hrun, Program.step_impl hnow hs, Option.map_some]
      have hless := implWork_step hflag hm
      obtain ⟨hflag', hsame⟩ : Client.FlagSet c ∧ c.loop = s.program.client.loop := by
        obtain ⟨posted, rfl⟩ := hm.client_eq
        exact ⟨hflag, rfl⟩
      obtain ⟨bs, s', log, hr, hmain, hended, htask, hloop⟩ :=
        ih _ (hn ▸ hless) (s := ⟨{ s.program with client := c, impl := impl, now := t }, s.main⟩)
          hrun hflag' (impl_ended hm).1 rfl
      exact ⟨_, s', _, (Run.single hstep).append hr, hmain, hended, htask, hloop.trans hsame⟩

def CanReturn (s : State p T) : Prop :=
  ∃ bs s' log, Run (step p) s bs s' log ∧ s'.main = .returned

/- A step of `main` alone. -/
theorem CanReturn.own {s : State p T} {main : MainAt T}
    (h : CanReturn (⟨s.program, main⟩ : State p T))
    (hm : mainStep s s.program.now true = some (none, main)) : CanReturn s := by
  have hstep : step p s (s.program.now, .main true) = some (⟨s.program, main⟩, []) := by
    simp only [step, if_pos (le_refl _), hm, Option.bind_some]
  obtain ⟨bs, s', log, hr, hret⟩ := h
  exact ⟨_, s', _, (Run.single hstep).append hr, hret⟩

/- Nothing keeps the destructors from running once both threads have ended. -/
theorem canReturn_leaving {s : State p T} {left : List Owned} (hmain : s.main = .leaving left)
    (htask : s.program.task.isEnded = true) (himpl : s.program.impl.isEnded = true) :
    CanReturn s := by
  induction left generalizing s with
  | nil =>
    have hdone : CanReturn (⟨s.program, .returned⟩ : State p T) := ⟨[], _, [], .nil, rfl⟩
    exact hdone.own (by rw [mainStep, hmain])
  | cons o left ih =>
    have hfree : canDestroy s o = true := by
      cases o <;> first | exact htask | exact himpl | rfl
    have hrest : CanReturn (⟨s.program, .leaving left⟩ : State p T) := ih rfl htask himpl
    refine hrest.own ?_
    rw [mainStep, hmain]
    exact if_pos hfree

theorem canReturn_of_ended {s : State p T} (h : Phase s)
    (hl : s.program.client.loop = .returned) (htask : s.program.task.isEnded = true)
    (himpl : s.program.impl.isEnded = true) : CanReturn s := by
  have hleaving : CanReturn (⟨s.program, .leaving teardown⟩ : State p T) :=
    canReturn_leaving rfl htask himpl
  have hwaitImpl : ∀ d, CanReturn (⟨s.program, .waitImpl d⟩ : State p T) := fun d =>
    CanReturn.own (s := ⟨s.program, .waitImpl d⟩) hleaving (if_pos (Or.inl himpl))
  have hwaitTask : ∀ d, CanReturn (⟨s.program, .waitTask d⟩ : State p T) := fun d =>
    CanReturn.own (s := ⟨s.program, .waitTask d⟩) (hwaitImpl _) (if_pos (Or.inl htask))
  unfold Phase at h
  cases hmain : s.main <;> rw [hmain] at h
  case constructing | launching | entering =>
    obtain ⟨-, hnot, -⟩ := h
    rw [hl] at hnot
    cases hnot
  case looping => exact (hwaitTask _).own (by rw [mainStep, hmain, hl])
  case waitTask d =>
    cases s
    cases hmain
    exact hwaitTask d
  case waitImpl d =>
    cases s
    cases hmain
    exact hwaitImpl d
  case leaving left => exact canReturn_leaving hmain htask himpl
  case returned => exact ⟨[], s, [], .nil, hmain⟩
  case terminated =>
    obtain ⟨e, hnot⟩ := h
    rw [hl] at hnot
    cases hnot

/- When the loop has returned, `main` has or will. -/
omit [CommRing T] [LinearOrder T] in
theorem phase_of_loop_returned {s : State p T} (h : Phase s)
    (hl : s.program.client.loop = .returned) : s.main = .returned ∨ running s.main = true ∧
      s.program.task.launched = true ∧ s.program.impl.launched = true := by
  unfold Phase at h
  cases hmain : s.main <;> rw [hmain] at h
  case constructing | launching | entering =>
    obtain ⟨-, hnot, -⟩ := h
    rw [hl] at hnot
    cases hnot
  case looping | waitTask | waitImpl => exact .inr ⟨rfl, h.2⟩
  case leaving => exact .inr ⟨rfl, h.2.1⟩
  case returned => exact .inl rfl
  case terminated =>
    obtain ⟨e, hnot⟩ := h
    rw [hl] at hnot
    cases hnot

/- Once the loop is left, the threads find the flags as it has left them. -/
theorem left_step {s s' : State p T} {a : T × ProcessAction HandlerType} {es : Program.Log p T}
    (hleft : Client.LoopLeft s.program.client) (hs : step p s a = some (s', es)) :
    s'.program.client.loop = s.program.client.loop ∧
      (Client.FlagSet s'.program.client → Client.FlagSet s.program.client) := by
  obtain ⟨t, a⟩ := a
  have hclient : ∀ {a : Action HandlerType} {c : Client HandlerType} {es : List (Event HandlerType)},
      Client.step s.program.client a = some (c, es) → c.loop = s.program.client.loop ∧
        (Client.FlagSet c → Client.FlagSet s.program.client) := by
    intro a c es hc
    obtain ⟨hl, hstop, herror⟩ := Client.loop_final hleft hc
    refine ⟨hl, fun hset => ?_⟩
    unfold Client.FlagSet at hset ⊢
    rwa [hstop, herror] at hset
  obtain ⟨-, es', hm, -⟩ := move_of_step hs
  cases hm with
  | own => exact ⟨rfl, id⟩
  | handler a c es _ hc => exact hclient hc
  | task c task es hr hm =>
    obtain ⟨posted, rfl⟩ := hm.client_eq
    exact ⟨rfl, id⟩
  | impl c impl es hr hm =>
    obtain ⟨posted, rfl⟩ := hm.client_eq
    exact ⟨rfl, id⟩
  | advance choice a main program es hm hp =>
    cases hp with
    | launchTask | launchImpl => exact ⟨rfl, id⟩
    | client a c es hc => exact hclient hc
    | task c task es hm =>
      obtain ⟨posted, rfl⟩ := hm.client_eq
      exact ⟨rfl, id⟩
    | impl c impl es hm =>
      obtain ⟨posted, rfl⟩ := hm.client_eq
      exact ⟨rfl, id⟩

theorem flags_after {s s' : State p T} {as : List (T × ProcessAction HandlerType)}
    {log : Program.Log p T} (hleft : Client.LoopLeft s.program.client)
    (h : Run (step p) s as s' log) :
    s'.program.client.loop = s.program.client.loop ∧
      (Client.FlagSet s'.program.client → Client.FlagSet s.program.client) := by
  refine h.invariant (fun s' _ => s'.program.client.loop = s.program.client.loop ∧
    (Client.FlagSet s'.program.client → Client.FlagSet s.program.client)) ⟨rfl, id⟩ ?_
  rintro s₁ log₁ a s₂ es ⟨hl, hflag⟩ hs
  have hleft₁ : Client.LoopLeft s₁.program.client := by
    unfold Client.LoopLeft at hleft ⊢
    rwa [hl]
  obtain ⟨hl', hflag'⟩ := left_step hleft₁ hs
  exact ⟨hl'.trans hl, fun hset => hflag (hflag' hset)⟩

/-! ### After an exception -/

/- The session throws a `std::string`, which is not caught; of a callback's exceptions those are
that derive from `std::exception`. -/
def caught (choice : Bool) : Thrown → Bool
  | .bufferFull _ => false
  | .callback => choice

/-- What becomes of `main` when `e` has left the loop: it goes to the destructors where `e` is
caught, and else the program is terminated; and there it stays. -/
structure AfterThrow (s : State p T) (e : Thrown) : Prop where
  leaves : s.main = .looping → ∀ t choice, s.program.now ≤ t → step p s (t, .main choice) =
    some (⟨{ s.program with now := t },
      if caught choice e then .leaving teardown else .terminated⟩, [])
  stays : s.main ≠ .looping →
    (s.main = .terminated ∨ s.main = .leaving teardown ∧ e = .callback) ∧
      ∀ bs s' log, Run (step p) s bs s' log → s'.main = s.main

/- No flag is set, so `ClientImpl` has not ended, and its future is the first to be destroyed. -/
omit [CommRing T] [LinearOrder T] in
theorem main_of_threw {s : State p T} {e : Thrown} (h : Held s)
    (hl : s.program.client.loop = .threw e) :
    s.main = .looping ∨ s.main = .terminated ∨
      s.main = .leaving teardown ∧ e = .callback ∧ s.program.impl.isEnded = false := by
  have himpl : s.program.impl.isEnded = false :=
    eq_false_of_ne_true fun hended => h.threw e hl (h.implEnded hended)
  have hphase := h.phase
  unfold Phase at hphase
  cases hmain : s.main <;> rw [hmain] at hphase
  case constructing | launching | entering =>
    obtain ⟨-, hnot, -⟩ := hphase
    cases hl.symm.trans hnot
  case looping => exact .inl rfl
  case waitTask | waitImpl => cases hl.symm.trans hphase.1
  case leaving left =>
    obtain ⟨hleft, -, hsuffix, hfuture, -⟩ := hphase
    have hwhole : left = teardown := by
      rcases List.suffix_cons_iff.mp hsuffix with hall | htail
      · exact hall
      · have hnot : Owned.clientFuture ∉ left := fun hmem => absurd (htail.subset hmem) (by decide)
        exact absurd (himpl.symm.trans (hfuture hnot)) Bool.false_ne_true
    rcases hleft with hret | hthrew
    · cases hl.symm.trans hret
    · cases hl.symm.trans hthrew
      exact .inr (.inr ⟨congrArg _ hwhole, rfl, himpl⟩)
  case returned => exact absurd (himpl.symm.trans hphase.2.1) Bool.false_ne_true
  case terminated => exact .inr (.inl rfl)

theorem mainStep_of_threw {s : State p T} {e : Thrown} (h : Held s)
    (hl : s.program.client.loop = .threw e) (hne : s.main ≠ .looping) (t : T) (choice : Bool) :
    mainStep s t choice = none := by
  rcases main_of_threw h hl with hmain | hmain | ⟨hmain, -, himpl⟩
  · exact absurd hmain hne
  · rw [mainStep, hmain]
  · rw [mainStep, hmain]
    refine if_neg ?_
    change ¬ s.program.impl.isEnded = true
    rw [himpl]
    exact Bool.false_ne_true

theorem afterThrow_of_held {s : State p T} {e : Thrown} (h : Held s)
    (hl : s.program.client.loop = .threw e) : AfterThrow s e where
  leaves hmain t choice hnow := by
    cases e <;> simp only [step, if_pos hnow, mainStep, hmain, hl, Option.bind_some] <;> rfl
  stays hne := by
    refine ⟨(main_of_threw h hl).resolve_left hne |>.imp_right fun hm => ⟨hm.1, hm.2.1⟩, ?_⟩
    intro bs s' log hr
    refine (hr.invariant (fun s' _ => Held s' ∧ s'.program.client.loop = .threw e ∧
      s'.main = s.main) ⟨h, hl, rfl⟩ ?_).2.2
    rintro s₁ log₁ ⟨t, a⟩ s₂ es ⟨hheld, hthrew, hsame⟩ hs
    refine ⟨held_step hheld hs, (left_step (.inr ⟨e, hthrew⟩) hs).1.trans hthrew, ?_⟩
    have hnone := mainStep_of_threw hheld hthrew (hsame ▸ hne) t
    obtain ⟨-, es', hm, -⟩ := move_of_step hs
    cases hm with
    | own choice main hm => cases (hnone choice).symm.trans hm
    | advance choice a main program es hm => cases (hnone choice).symm.trans hm
    | handler a c es hlooping => exact absurd (hsame.symm.trans hlooping) hne
    | task | impl => exact hsame

/-- Once the loop has been left, `main` can come to return exactly when the loop has returned.
An exception that `main` does not catch terminates the program, the session's own always. After
one that it catches it waits for ever: no flag is set, so `ClientImpl` goes on and the destructor
of its future waits for it. -/
theorem returns_iff_loop_returned [Inhabited HandlerType] (p : Shipped HandlerType) (mHost : Str)
    (as : List (T × ProcessAction HandlerType)) (s : State p T) (log : Program.Log p T)
    (h : Run (step p) (initial p mHost) as s log) (hleft : Client.LoopLeft s.program.client) :
    (CanReturn s ↔ s.program.client.loop = .returned) ∧
      ∀ e, s.program.client.loop = .threw e → AfterThrow s e := by
  have hheld := held_of_run h
  refine ⟨⟨?_, fun hl => ?_⟩, fun e hl => afterThrow_of_held hheld hl⟩
  · rintro ⟨bs, s', log', hr, hret⟩
    have hheld' := held_of_run (h.append hr)
    have hphase := hheld'.phase
    rw [Phase, hret] at hphase
    have hflag := (flags_after hleft hr).2 (hheld'.implEnded hphase.2.1)
    rcases hleft with hl | ⟨e, hl⟩
    · exact hl
    · exact absurd hflag (hheld.threw e hl)
  · have hflag := hheld.flags.stopped (hheld.flags.returned hl)
    rcases phase_of_loop_returned hheld.phase hl with hret | ⟨hrun, htask, himpl⟩
    · exact ⟨[], s, [], .nil, hret⟩
    · obtain ⟨bs, s₁, log₁, hr₁, hmain₁, htask₁, himpl₁, hflag₁, hl₁⟩ :=
        task_can_end hrun hflag htask
      obtain ⟨bs', s₂, log₂, hr₂, -, himpl₂, htask₂, hl₂⟩ :=
        impl_can_end (hmain₁ ▸ hrun) hflag₁ (himpl₁ ▸ himpl)
      have hheld₂ := held_of_run ((h.append hr₁).append hr₂)
      obtain ⟨bs'', s₃, log₃, hr₃, hret⟩ := canReturn_of_ended hheld₂.phase
        (hl₂.trans (hl₁.trans hl)) (htask₂ ▸ htask₁) himpl₂
      exact ⟨_, s₃, _, (hr₁.append hr₂).append hr₃, hret⟩

/- SIGINT; and a callback that throws a `std::exception`, after which `main` is stuck. -/
theorem returns_iff_loop_returned_both :
    let p : Shipped ℕ := ⟨[("/api/v3/time".toList, 0)], 1⟩
    ∃ s s' : State p ℤ, CanReturn s ∧ s'.main = .leaving teardown ∧ ¬ CanReturn s' ∧
      ∀ bs s'' log, Run (step p) s' bs s'' log → s''.main = s'.main := by
  intro p
  let signalled : List (ℤ × ProcessAction ℕ) :=
    opening ++ [(2, .handler .signal), (3, .handler .iocReturn)]
  let thrown : List (ℤ × ProcessAction ℕ) := opening ++
    [(2, .handler (.setupDone .resolve 0)), (2, .handler (.setupDone .connect 0)),
      (2, .handler (.setupDone .handshake 0)), (3, .task), (3, .task), (3, .task), (3, .task),
      (4, .handler .execRequest), (5, .handler (.onRead 0 default)), (5, .handler .callbackThrow),
      (6, .main true)]
  obtain ⟨s, log, hr, hl⟩ := run_of_observed (step p) (initial p "h".toList) signalled
    (fun r => r.1.program.client.loop) (show _ = some .returned by decide +kernel)
  obtain ⟨s', log', hr', hv⟩ := run_of_observed (step p) (initial p "h".toList) thrown
    (fun r => (r.1.program.client.loop, match r.1.main with | .leaving left => left | _ => []))
    (show _ = some (.threw .callback, teardown) by decide +kernel)
  obtain ⟨hthrew, hleaving⟩ := Prod.mk.inj hv
  have hmain : s'.main = .leaving teardown := by
    cases hs : s'.main <;> rw [hs] at hleaving <;> first | exact congrArg _ hleaving | cases hleaving
  obtain ⟨hreturns, hafter⟩ :=
    returns_iff_loop_returned p "h".toList thrown s' log' hr' (.inr ⟨_, hthrew⟩)
  refine ⟨s, s', ?_, hmain, fun hcan => ?_, ((hafter _ hthrew).stays (hmain ▸ nofun)).2⟩
  · exact (returns_iff_loop_returned p "h".toList signalled s log hr (.inl hl)).1.mpr hl
  · cases (hreturns.mp hcan).symm.trans hthrew

end Process
end RestClient
