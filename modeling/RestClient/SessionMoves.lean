import RestClient.Session

/-!
# What a step of the client can do

One constructor for each way through the functions of the session. Every
invariant is proved by cases on it, so no proof below unfolds the machine.
-/

namespace RestClient.Client
open Machine
variable {HandlerType : Type}

inductive Move (s : Client HandlerType) :
    Action HandlerType → Client HandlerType → List (Event HandlerType) → Prop
  | hostNameFailed (hr : s.runReturned = false) :
      Move s (.sessionRun false) { s with runReturned := true } []
  | hostNameSet (hr : s.runReturned = false) :
      Move s (.sessionRun true) { s with setup := s.setup ++ [.resolve], runReturned := true }
        [.done .hostName]
  | iocRun (hr : s.runReturned = true) (hl : s.loop = .notStarted) :
      Move s .iocRun { s with loop := .running } []
  | notReady (request hdl) (hn : s.mSessionReady = false) :
      Move s (.asyncRequest request hdl) s [.requested request hdl .sessionNotReady]
  | post (request hdl) (hn : s.mSessionReady = true) :
      Move s (.asyncRequest request hdl) { s with posted := s.posted ++ [(request, hdl)] }
        [.requested request hdl .requestSent]
  | refuse (request hdl rest) (hc : s.canHandle) (hp : s.posted = (request, hdl) :: rest)
      (hf : s.mRequest.full) :
      Move s .execRequest { s with
        posted := rest
        mHttpRequest := s.mHttpRequest.setTarget request
        loop := .threw (.bufferFull (writeBufferFull s.mRequest.mWritePos s.mRequest.mReadPos)) }
        [.refused request hdl]
  | add (request hdl rest mRequest slot) (hc : s.canHandle)
      (hp : s.posted = (request, hdl) :: rest)
      (ha : s.mRequest.add (s.mHttpRequest.setTarget request) hdl = .ok (mRequest, slot)) :
      Move s .execRequest { s with
        posted := rest
        mHttpRequest := s.mHttpRequest.setTarget request
        mRequest := mRequest
        writes := s.writes ++ [⟨s.writesStarted, slot⟩]
        writesStarted := s.writesStarted + 1 }
        [.added request hdl slot, .writeStarted s.writesStarted (mRequest.mRequests slot).1]
  | setupFailed (op ec ctx) (hc : s.canHandle) (ho : op ∈ s.setup) (he : ec ≠ 0) :
      Move s (.setupDone op ec)
        { s with setup := s.setup.erase op, mError := ec, stopped := true } [.errorHandled ctx ec]
  | resolved (hc : s.canHandle) (ho : .resolve ∈ s.setup) :
      Move s (.setupDone .resolve 0)
        { s with setup := s.setup.erase .resolve ++ [.connect] } [.done .resolve]
  | connected (hc : s.canHandle) (ho : .connect ∈ s.setup) :
      Move s (.setupDone .connect 0)
        { s with setup := s.setup.erase .connect ++ [.handshake] } [.done .connect]
  | handshaken (hc : s.canHandle) (ho : .handshake ∈ s.setup) :
      Move s (.setupDone .handshake 0) { s with
        setup := s.setup.erase .handshake
        mSessionReady := true
        mHttpResult := default
        reads := s.reads + 1 } [.done .handshake, .readStarted]
  | readFailed (ec response) (hc : s.canHandle) (hr : 0 < s.reads) (he : ec ≠ 0) :
      Move s (.onRead ec response) { s with
        reads := s.reads - 1
        mHttpResult := response
        mError := ec
        stopped := true } [.errorHandled "OnRead".toList ec]
  | deliver (response mRequest req hdl) (hc : s.canHandle) (hr : 0 < s.reads)
      (hg : s.mRequest.get = (mRequest, some (req, hdl))) :
      Move s (.onRead 0 response) { s with
        mRequest := mRequest
        mHttpResult := response
        reads := s.reads - 1
        inCallback := true }
        [.responseRead response, .invoked ⟨hdl, response.body, response.status, req.target⟩]
  | unsolicited (response) (hc : s.canHandle) (hr : 0 < s.reads)
      (hg : ¬ s.mRequest.mReadPos < s.mRequest.mWritePos) :
      Move s (.onRead 0 response) { s with mHttpResult := default, reads := s.reads - 1 + 1 }
        [.responseRead response, .readStarted]
  | callbackReturn (hl : s.loop = .running) (hi : s.inCallback = true) :
      Move s .callbackReturn
        { s with inCallback := false, mHttpResult := default, reads := s.reads + 1 } [.readStarted]
  | callbackThrow (hl : s.loop = .running) (hi : s.inCallback = true) :
      Move s .callbackThrow { s with inCallback := false, loop := .threw .callback } []
  | writeDone (op) (hc : s.canHandle) (ho : op ∈ s.writes) :
      Move s (.onWrite op.serial 0) { s with writes := s.writes.erase op } []
  | writeFailed (op ec) (hc : s.canHandle) (ho : op ∈ s.writes) (he : ec ≠ 0) :
      Move s (.onWrite op.serial ec)
        { s with writes := s.writes.erase op, mError := ec, stopped := true }
        [.errorHandled "OnWrite".toList ec]
  | signal (hc : s.canHandle) (hw : s.signalWait = true) :
      Move s .signal
        { s with signalWait := false, mStopSubscriber := true, stopped := true } [.stopCalled]
  | iocReturn (hl : s.loop = .running) (hi : s.inCallback = false)
      (hs : s.stopped = true ∨ s.idle) :
      Move s .iocReturn { s with loop := .returned } []

/-! ### Inversion -/

theorem move_of_execRequest {s s' : Client HandlerType} {es : List (Event HandlerType)}
    (h : step s .execRequest = some (s', es)) : Move s .execRequest s' es := by
  unfold step at h
  cases hp : s.posted with
  | nil => simp [hp] at h
  | cons p rest =>
    obtain ⟨request, hdl⟩ := p
    simp only [hp] at h
    obtain ⟨hc, h⟩ := Option.ite_none_right_eq_some.mp h
    unfold Session.execRequest at h
    by_cases hf : s.mRequest.full
    · simp only [RequestBuffer.add_full _ _ hf] at h
      cases h
      exact .refuse request hdl rest hc hp hf
    · have ha := RequestBuffer.add_room (s.mHttpRequest.setTarget request) hdl hf
      simp only [ha] at h
      cases h
      exact .add request hdl rest _ _ hc hp ha

theorem move_of_setupDone {s s' : Client HandlerType} {op : SetupStep} {ec : ErrorCode}
    {es : List (Event HandlerType)} (h : step s (.setupDone op ec) = some (s', es)) :
    Move s (.setupDone op ec) s' es := by
  obtain ⟨⟨hc, ho⟩, h⟩ := Option.ite_none_right_eq_some.mp h
  by_cases he : ec = 0
  · subst he
    cases op with
    | hostName => contradiction
    | resolve =>
      cases h
      exact .resolved hc ho
    | connect =>
      cases h
      exact .connected hc ho
    | handshake =>
      cases h
      exact .handshaken hc ho
  · cases op with
    | hostName => contradiction
    | resolve =>
      simp only [setupHandler, Session.onResolve, if_pos he] at h
      cases h
      exact .setupFailed .resolve ec _ hc ho he
    | connect =>
      simp only [setupHandler, Session.onConnect, if_pos he] at h
      cases h
      exact .setupFailed .connect ec _ hc ho he
    | handshake =>
      simp only [setupHandler, Session.onHandshake, if_pos he] at h
      cases h
      exact .setupFailed .handshake ec _ hc ho he

theorem move_of_onRead {s s' : Client HandlerType} {ec : ErrorCode} {response : HttpResponse}
    {es : List (Event HandlerType)} (h : step s (.onRead ec response) = some (s', es)) :
    Move s (.onRead ec response) s' es := by
  obtain ⟨⟨hc, hr⟩, h⟩ := Option.ite_none_right_eq_some.mp h
  unfold Handler.onRead at h
  by_cases he : ec = 0
  · subst he
    by_cases hne : s.mRequest.mReadPos < s.mRequest.mWritePos
    · have hg := RequestBuffer.get_nonempty hne
      simp only [ne_eq, not_true_eq_false, if_false, hg] at h
      cases h
      exact .deliver response _ _ _ hc hr hg
    · simp only [ne_eq, not_true_eq_false, if_false, RequestBuffer.get_empty hne] at h
      cases h
      exact .unsolicited response hc hr hne
  · simp only [if_pos he] at h
    cases h
    exact .readFailed ec response hc hr he

theorem move_of_onWrite {s s' : Client HandlerType} {serial : ℕ} {ec : ErrorCode}
    {es : List (Event HandlerType)} (h : step s (.onWrite serial ec) = some (s', es)) :
    Move s (.onWrite serial ec) s' es := by
  unfold step at h
  cases hop : s.writes.find? fun op => op.serial == serial with
  | none => simp [hop] at h
  | some op =>
    have ho := List.mem_of_find?_eq_some hop
    have hserial : op.serial = serial := by simpa using List.find?_some hop
    subst hserial
    simp only [hop] at h
    obtain ⟨hc, h⟩ := Option.ite_none_right_eq_some.mp h
    by_cases he : ec = 0
    · subst he
      cases h
      exact .writeDone op hc ho
    · simp only [Handler.onWrite, if_pos he] at h
      cases h
      exact .writeFailed op ec hc ho he

theorem move_of_step {s s' : Client HandlerType} {a : Action HandlerType}
    {es : List (Event HandlerType)} (h : step s a = some (s', es)) : Move s a s' es := by
  cases a with
  | execRequest => exact move_of_execRequest h
  | setupDone op ec => exact move_of_setupDone h
  | onRead ec response => exact move_of_onRead h
  | onWrite serial ec => exact move_of_onWrite h
  | sessionRun hostNameSet =>
    obtain ⟨hr, h⟩ := Option.ite_none_left_eq_some.mp h
    have hr₀ := Bool.eq_false_of_not_eq_true hr
    cases hostNameSet with
    | false =>
      cases h
      exact .hostNameFailed hr₀
    | true =>
      cases h
      exact .hostNameSet hr₀
  | iocRun =>
    obtain ⟨hr, h⟩ := Option.ite_none_right_eq_some.mp h
    cases h
    exact .iocRun hr.1 hr.2
  | asyncRequest request hdl =>
    cases hn : s.mSessionReady with
    | false =>
      simp only [step, Session.asyncRequest_notReady request hdl hn] at h
      cases h
      exact .notReady request hdl hn
    | true =>
      simp only [step, Session.asyncRequest_ready request hdl hn] at h
      cases h
      exact .post request hdl hn
  | callbackReturn =>
    obtain ⟨hi, h⟩ := Option.ite_none_right_eq_some.mp h
    cases h
    exact .callbackReturn hi.1 hi.2
  | callbackThrow =>
    obtain ⟨hi, h⟩ := Option.ite_none_right_eq_some.mp h
    cases h
    exact .callbackThrow hi.1 hi.2
  | signal =>
    obtain ⟨hc, h⟩ := Option.ite_none_right_eq_some.mp h
    cases h
    exact .signal hc.1 hc.2
  | iocReturn =>
    obtain ⟨hi, h⟩ := Option.ite_none_right_eq_some.mp h
    cases h
    exact .iocReturn hi.1 hi.2.1 hi.2.2

/-! ### Steps that are enabled -/

/- A session is set up without a failure. -/
def startUp : List (Action HandlerType) :=
  [.sessionRun true, .iocRun, .setupDone .resolve 0, .setupDone .connect 0,
    .setupDone .handshake 0]

theorem run_startUp [Inhabited HandlerType] (mHost : Str) :
    Run step (initial mHost : Client HandlerType) startUp
      { (initial mHost : Client HandlerType) with
        mSessionReady := true
        loop := .running
        runReturned := true
        reads := 1 }
      [.done .hostName, .done .resolve, .done .connect, .done .handshake, .readStarted] :=
  run_of_exec rfl

theorem step_post {s : Client HandlerType} (request : Str) (hdl : HandlerType)
    (hn : s.mSessionReady = true) :
    step s (.asyncRequest request hdl) =
      some ({ s with posted := s.posted ++ [(request, hdl)] },
        [.requested request hdl .requestSent]) := by
  simp only [step, Session.asyncRequest_ready request hdl hn]

theorem step_refuse {s : Client HandlerType} {request : Str} {hdl : HandlerType}
    {rest : List (Str × HandlerType)} (hc : s.canHandle) (hp : s.posted = (request, hdl) :: rest)
    (hf : s.mRequest.full) :
    step s .execRequest = some ({ s with
      posted := rest
      mHttpRequest := s.mHttpRequest.setTarget request
      loop := .threw (.bufferFull (writeBufferFull s.mRequest.mWritePos s.mRequest.mReadPos)) },
      [.refused request hdl]) := by
  simp only [step, hp, if_pos hc, Session.execRequest, RequestBuffer.add_full _ _ hf]

theorem step_add {s : Client HandlerType} {request : Str} {hdl : HandlerType}
    {rest : List (Str × HandlerType)} (hc : s.canHandle) (hp : s.posted = (request, hdl) :: rest)
    (hf : ¬ s.mRequest.full) :
    ∃ mRequest slot,
      s.mRequest.add (s.mHttpRequest.setTarget request) hdl = .ok (mRequest, slot) ∧
      step s .execRequest = some ({ s with
        posted := rest
        mHttpRequest := s.mHttpRequest.setTarget request
        mRequest := mRequest
        writes := s.writes ++ [⟨s.writesStarted, slot⟩]
        writesStarted := s.writesStarted + 1 },
        [.added request hdl slot, .writeStarted s.writesStarted (mRequest.mRequests slot).1]) := by
  have ha := RequestBuffer.add_room (s.mHttpRequest.setTarget request) hdl hf
  refine ⟨_, _, ha, ?_⟩
  simp only [step, hp, if_pos hc, Session.execRequest, ha]
  rfl

theorem step_deliver {s : Client HandlerType} (response : HttpResponse) (hc : s.canHandle)
    (hr : 0 < s.reads) (hne : s.mRequest.mReadPos < s.mRequest.mWritePos) :
    ∃ mRequest req hdl, s.mRequest.get = (mRequest, some (req, hdl)) ∧
      step s (.onRead 0 response) = some ({ s with
        mRequest := mRequest
        mHttpResult := response
        reads := s.reads - 1
        inCallback := true },
        [.responseRead response, .invoked ⟨hdl, response.body, response.status, req.target⟩]) := by
  have hg := RequestBuffer.get_nonempty hne
  refine ⟨_, _, _, hg, ?_⟩
  simp only [step, if_pos (And.intro hc hr), Handler.onRead, hg]
  rfl

theorem step_callbackReturn {s : Client HandlerType} (hl : s.loop = .running)
    (hi : s.inCallback = true) :
    step s .callbackReturn =
      some ({ s with inCallback := false, mHttpResult := default, reads := s.reads + 1 },
        [.readStarted]) := by
  simp only [step, if_pos (And.intro hl hi), Handler.read]

end RestClient.Client
