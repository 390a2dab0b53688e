import RestClient.Lib.Machine
import RestClient.RequestBuffer

/-!
# The client, its session and the event loop

The state is that of one `RestClient` with its `Session`, its `Handler` and the
`io_context` they share. A step is one handler executed by the thread in
`mIoc.run()`, one call from another thread, or the part of `OnRead` before or
after a user callback. The environment chooses the error codes, the responses
and the order of completions. Handlers run only while the loop runs, is not
stopped and is in no callback; `Session::AsyncRequest` can be called at any time.
-/

namespace RestClient
open Machine

/-- An error code is its value; 0 is success. -/
abbrev ErrorCode := ℤ

/- `RequestStatus` (helper.hpp:20-25). -/
inductive RequestStatus where
  | requestSent
  | sessionNotReady
  | sessionError
  | endSubscribeRequest
  deriving DecidableEq, Repr

/- The four steps of the set-up. The last three complete asynchronously. -/
inductive SetupStep where
  | hostName
  | resolve
  | connect
  | handshake
  deriving DecidableEq, Repr

/- An exception that left a handler and with it `mIoc.run()`: one of `add`, or one of a user
callback. The parser can throw as well, within a read (`ReadState.threw`); here a read completes
or is outstanding, and that exit is left out. -/
inductive Thrown where
  | bufferFull (what : Str)
  | callback
  deriving DecidableEq

inductive Loop where
  | notStarted
  | running
  | returned
  | threw (e : Thrown)
  deriving DecidableEq

/- An outstanding `async_write`: its number in the order of the starts and the
slot of the message it refers to until it completes. -/
structure WriteOp where
  serial : ℕ
  slot : Fin RingSize.standard.mSize.toNat
  deriving DecidableEq

/- The arguments of one call of a user callback. -/
structure Invocation (HandlerType : Type) where
  hdl : HandlerType
  data : Str
  result : ℕ
  target : Str
  deriving DecidableEq

structure Client (HandlerType : Type) where
  -- RestClient
  mStopSubscriber : Bool
  -- Session
  mSessionReady : Bool
  mError : ErrorCode
  mHttpRequest : HttpRequest
  mRequest : RequestBuffer HandlerType .standard
  -- Handler
  mHttpResult : HttpResponse
  -- the io_context: its state, then what is posted or outstanding
  loop : Loop
  stopped : Bool
  runReturned : Bool
  inCallback : Bool
  signalWait : Bool
  setup : List SetupStep
  posted : List (Str × HandlerType)
  reads : ℕ
  writes : List WriteOp
  writesStarted : ℕ

inductive Action (HandlerType : Type) where
  | sessionRun (hostNameSet : Bool)
  | iocRun
  | asyncRequest (request : Str) (hdl : HandlerType)
  | execRequest
  | setupDone (op : SetupStep) (ec : ErrorCode)
  | onRead (ec : ErrorCode) (response : HttpResponse)
  | callbackReturn
  | callbackThrow
  | onWrite (serial : ℕ) (ec : ErrorCode)
  | signal
  | iocReturn
  deriving DecidableEq

inductive Event (HandlerType : Type) where
  | done (op : SetupStep)
  | errorHandled (ctx : Str) (error : ErrorCode)
  | requested (request : Str) (hdl : HandlerType) (status : RequestStatus)
  | added (request : Str) (hdl : HandlerType) (slot : Fin RingSize.standard.mSize.toNat)
  | refused (request : Str) (hdl : HandlerType)
  | writeStarted (serial : ℕ) (message : HttpRequest)
  | readStarted
  | responseRead (response : HttpResponse)
  | invoked (call : Invocation HandlerType)
  | stopCalled
  deriving DecidableEq

abbrev Effect (HandlerType : Type) := Client HandlerType × List (Event HandlerType)

variable {HandlerType : Type}

/-! ### Session (session.cpp) -/

namespace Session

/- The request the constructor prepares (session.cpp:14-19): `set` trims the host,
`keep_alive(true)` adds no field to an HTTP/1.1 request. -/
def preparedRequest (mHost : Str) : HttpRequest where
  version := 11
  method := .get
  target := []
  fields := [("Host".toList, trim mHost), ("User-Agent".toList, "Boost.Beast/328".toList)]

def errorHandle (s : Client HandlerType) (error : ErrorCode) (ctx : String) :
    Effect HandlerType :=
  ({ s with mError := error, stopped := true }, [.errorHandled ctx.toList error])

def stop (s : Client HandlerType) : Client HandlerType := { s with stopped := true }

/- `hostNameSet` is the result of `SSL_set_tlsext_host_name`. -/
def run (s : Client HandlerType) (hostNameSet : Bool) : Effect HandlerType :=
  if !hostNameSet then ({ s with runReturned := true }, [])
  else ({ s with setup := s.setup ++ [.resolve], runReturned := true }, [.done .hostName])

end Session

/-! ### Handler (handler.cpp) -/

namespace Handler

def read (s : Client HandlerType) : Effect HandlerType :=
  ({ s with mHttpResult := default, reads := s.reads + 1 }, [.readStarted])

/- `OnRead` up to the call of the callback, or to its end when there is none. -/
def onRead (s : Client HandlerType) (ec : ErrorCode) : Effect HandlerType :=
  if ec ≠ 0 then Session.errorHandle s ec "OnRead"
  else
    match s.mRequest.get with
    | (mRequest, some (req, hdl)) =>
      ({ s with mRequest := mRequest, inCallback := true },
        [.responseRead s.mHttpResult,
          .invoked ⟨hdl, s.mHttpResult.body, s.mHttpResult.status, req.target⟩])
    | (mRequest, none) =>
      let (s', es) := read { s with mRequest := mRequest }
      (s', .responseRead s.mHttpResult :: es)

def onWrite (s : Client HandlerType) (ec : ErrorCode) : Effect HandlerType :=
  if ec ≠ 0 then Session.errorHandle s ec "OnWrite" else (s, [])

/- Starts an `async_write` of the message in `slot`. -/
def write (s : Client HandlerType) (slot : Fin RingSize.standard.mSize.toNat) :
    Effect HandlerType :=
  ({ s with writes := s.writes ++ [⟨s.writesStarted, slot⟩], writesStarted := s.writesStarted + 1 },
    [.writeStarted s.writesStarted (s.mRequest.mRequests slot).1])

end Handler

namespace Session

/- An exception of `add` leaves `ExecRequest`, its handler and the loop. -/
def execRequest (s : Client HandlerType) (request : Str) (hdl : HandlerType) :
    Effect HandlerType :=
  let s := { s with mHttpRequest := s.mHttpRequest.setTarget request }
  match s.mRequest.add s.mHttpRequest hdl with
  | .error what => ({ s with loop := .threw (.bufferFull what) }, [.refused request hdl])
  | .ok (mRequest, slot) =>
    let (s', es) := Handler.write { s with mRequest := mRequest } slot
    (s', .added request hdl slot :: es)

def asyncRequest (s : Client HandlerType) (request : Str) (hdl : HandlerType) :
    Client HandlerType × RequestStatus :=
  if !s.mSessionReady then (s, .sessionNotReady)
  else ({ s with posted := s.posted ++ [(request, hdl)] }, .requestSent)

theorem asyncRequest_notReady {s : Client HandlerType} (request : Str) (hdl : HandlerType)
    (h : s.mSessionReady = false) : asyncRequest s request hdl = (s, .sessionNotReady) := by
  unfold asyncRequest
  rw [h]
  rfl

theorem asyncRequest_ready {s : Client HandlerType} (request : Str) (hdl : HandlerType)
    (h : s.mSessionReady = true) :
    asyncRequest s request hdl =
      ({ s with posted := s.posted ++ [(request, hdl)] }, .requestSent) :=
  if_neg (by simp [h])

def onResolve (s : Client HandlerType) (ec : ErrorCode) : Effect HandlerType :=
  if ec ≠ 0 then errorHandle s ec "resolve"
  else ({ s with setup := s.setup ++ [.connect] }, [.done .resolve])

def onConnect (s : Client HandlerType) (ec : ErrorCode) : Effect HandlerType :=
  if ec ≠ 0 then errorHandle s ec "OnConnect"
  else ({ s with setup := s.setup ++ [.handshake] }, [.done .connect])

def onHandshake (s : Client HandlerType) (ec : ErrorCode) : Effect HandlerType :=
  if ec ≠ 0 then errorHandle s ec "OnHandshake"
  else
    let (s', es) := Handler.read { s with mSessionReady := true }
    (s', .done .handshake :: es)

end Session

/-! ### RestClient (rest_client.cpp) and its clients -/

/- `SignalHandler` (rest_client.cpp:22-28). -/
def signalHandler (s : Client HandlerType) : Effect HandlerType :=
  (Session.stop { s with mStopSubscriber := true }, [.stopCalled])

def cPrefix : Str := "/api/v3/".toList

/- `RestClient::AsyncRequest` (rest_client.cpp:68-80). -/
def asyncRequest (s : Client HandlerType) (request : Str) (fn : HandlerType) :
    Client HandlerType × RequestStatus :=
  let newRequest := cPrefix ++ request
  if s.mError ≠ 0 then (s, .sessionError)
  else if s.mStopSubscriber then (s, .endSubscribeRequest)
  else Session.asyncRequest s newRequest fn

/- The loop condition of the subscriber task (rest_client.cpp:85). -/
def subscriberContinues (s : Client HandlerType) : Bool :=
  !s.mStopSubscriber && s.mError == 0

/- The statuses on which `ClientImpl` returns (client_decoder_example.hpp:57-60). -/
def clientImplReturns (status : RequestStatus) : Bool :=
  status == .sessionError || status == .endSubscribeRequest

/-! ### The machine -/

namespace Client

/- The state after the constructors up to the call of `Session::Run`: the
signal wait is started and nothing else is outstanding. -/
def initial [Inhabited HandlerType] (mHost : Str) : Client HandlerType where
  mStopSubscriber := false
  mSessionReady := false
  mError := 0
  mHttpRequest := Session.preparedRequest mHost
  mRequest := RequestBuffer.initial
  mHttpResult := default
  loop := .notStarted
  stopped := false
  runReturned := false
  inCallback := false
  signalWait := true
  setup := []
  posted := []
  reads := 0
  writes := []
  writesStarted := 0

/- The thread in `mIoc.run()` may take the next handler. -/
def canHandle (s : Client HandlerType) : Prop :=
  s.loop = .running ∧ s.stopped = false ∧ s.inCallback = false

instance (s : Client HandlerType) : Decidable s.canHandle :=
  inferInstanceAs (Decidable (_ ∧ _ ∧ _))

/- Nothing is left that could complete. -/
def idle (s : Client HandlerType) : Prop :=
  s.signalWait = false ∧ s.setup = [] ∧ s.posted.isEmpty ∧ s.reads = 0 ∧ s.writes = []

instance (s : Client HandlerType) : Decidable s.idle :=
  inferInstanceAs (Decidable (_ ∧ _ ∧ _ ∧ _ ∧ _))

def setupHandler : SetupStep → Client HandlerType → ErrorCode → Option (Effect HandlerType)
  | .hostName, _, _ => none
  | .resolve, s, ec => some (Session.onResolve s ec)
  | .connect, s, ec => some (Session.onConnect s ec)
  | .handshake, s, ec => some (Session.onHandshake s ec)

def step : Step (Client HandlerType) (Action HandlerType) (Event HandlerType)
  | s, .sessionRun hostNameSet =>
    if s.runReturned then none else some (Session.run s hostNameSet)
  | s, .iocRun =>
    if s.runReturned ∧ s.loop = .notStarted then some ({ s with loop := .running }, []) else none
  | s, .asyncRequest request hdl =>
    let (s', status) := Session.asyncRequest s request hdl
    some (s', [.requested request hdl status])
  | s, .execRequest =>
    match s.posted with
    | [] => none
    | (request, hdl) :: rest =>
      if s.canHandle then some (Session.execRequest { s with posted := rest } request hdl) else none
  | s, .setupDone op ec =>
    if s.canHandle ∧ op ∈ s.setup then setupHandler op { s with setup := s.setup.erase op } ec
    else none
  | s, .onRead ec response =>
    if s.canHandle ∧ 0 < s.reads then
      some (Handler.onRead { s with reads := s.reads - 1, mHttpResult := response } ec)
    else none
  | s, .callbackReturn =>
    if s.loop = .running ∧ s.inCallback then some (Handler.read { s with inCallback := false })
    else none
  | s, .callbackThrow =>
    if s.loop = .running ∧ s.inCallback then
      some ({ s with inCallback := false, loop := .threw .callback }, [])
    else none
  | s, .onWrite serial ec =>
    match s.writes.find? fun op => op.serial == serial with
    | none => none
    | some op =>
      if s.canHandle then some (Handler.onWrite { s with writes := s.writes.erase op } ec) else none
  | s, .signal =>
    if s.canHandle ∧ s.signalWait then some (signalHandler { s with signalWait := false })
    else none
  | s, .iocReturn =>
    if s.loop = .running ∧ s.inCallback = false ∧ (s.stopped ∨ s.idle) then
      some ({ s with loop := .returned }, [])
    else none

end Client
end RestClient
