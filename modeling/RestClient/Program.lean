import RestClient.SessionMoves
import RestClient.Targets
import Mathlib.Algebra.Ring.Defs
import Mathlib.Order.Defs.LinearOrder

/-!
# The shipped program (rest_client.cpp, client_decoder_example.hpp, main.cpp)

Two threads call `AsyncRequest`: the task of `LaunchTaskSubscribe` and `ClientImpl`. A step
of a thread is a load of a flag, the start of a call, the part of `Session::AsyncRequest`
before its sleep, or the end of a sleep, which lasts at least as long as it says. The
thread in `mIoc.run()` and any other caller take the steps of the client. Each action
carries the instant at which it happens, in milliseconds.
-/

namespace RestClient
open Machine
variable {HandlerType T : Type}

def cBinanceLimitRequestsPerMin : ℕ := 120
def cTimeoutMs : ℕ := 1000 / (cBinanceLimitRequestsPerMin / 60)

/- What `main` sets up: the subscriptions, fixed before `run()`, and the callback that
`ClientImpl` passes. -/
structure Shipped (HandlerType : Type) where
  mSubscriber : Subscribers HandlerType
  myAsyncLambda : HandlerType

/- Where the task of `LaunchTaskSubscribe` stands (rest_client.cpp:84-92). A thread in a
sleep may go on from the instant `wake`. -/
inductive TaskAt (n : ℕ) (T : Type) where
  | notLaunched
  | testStop
  | testError
  | request (i : Fin n)
  | calling (i : Fin n)
  | refused (i : Fin n) (wake : T)
  | pause (i : Fin n) (wake : T)
  | ended

def TaskAt.launched {n : ℕ} : TaskAt n T → Bool
  | .notLaunched => false
  | _ => true

/- Where `ClientImpl` stands (client_decoder_example.hpp:55-62). -/
inductive ImplAt (T : Type) where
  | notLaunched
  | testError
  | testStop
  | calling
  | refused (wake : T)
  | pause (wake : T)
  | ended

inductive Caller (n : ℕ) where
  | task (i : Fin n)
  | impl
  deriving DecidableEq

structure Program (HandlerType : Type) (n : ℕ) (T : Type) where
  client : Client HandlerType
  task : TaskAt n T
  impl : ImplAt T
  now : T

inductive ProgramAction (HandlerType : Type) where
  | launchTask
  | launchImpl
  | client (a : Action HandlerType)
  | task
  | impl

inductive ProgramEvent (HandlerType : Type) (n : ℕ) where
  | client (e : Event HandlerType)
  | called (i : Fin n)
  | answered (who : Caller n) (status : RequestStatus)

namespace Program
variable [CommRing T] [LinearOrder T]

/-! ### The two threads -/

/- The `for` loop from entry `i` on; after the last entry the `while` loop tests its flags. -/
def fromEntry (n i : ℕ) : TaskAt n T := if h : i < n then .request ⟨i, h⟩ else .testStop

/- The sleep per message. -/
def taskAnswered {n : ℕ} (t : T) (i : Fin n) : TaskAt n T := .pause i (t + (cTimeoutMs : T))

def taskStep (mSubscriber : Subscribers HandlerType) (c : Client HandlerType) (t : T) :
    TaskAt mSubscriber.length T → Option (Client HandlerType × TaskAt mSubscriber.length T ×
      List (ProgramEvent HandlerType mSubscriber.length))
  | .notLaunched => none
  | .testStop => some (c, if c.mStopSubscriber then .ended else .testError, [])
  | .testError => some (c, if c.mError ≠ 0 then .ended else fromEntry _ 0, [])
  | .request i => some (c, .calling i, [.called i])
  | .calling i =>
    let (request, fn) := mSubscriber.get i
    match Session.asyncRequest c request fn with
    | (c, .requestSent) => some (c, taskAnswered t i,
        [.client (.requested request fn .requestSent), .answered (.task i) .requestSent])
    -- `Session::AsyncRequest` sleeps before it returns another status
    | (c, status) => some (c, .refused i (t + ((1000 : ℕ) : T)),
        [.client (.requested request fn status)])
  | .refused i wake =>
    if wake ≤ t then some (c, taskAnswered t i, [.answered (.task i) .sessionNotReady]) else none
  | .pause i wake => if wake ≤ t then some (c, fromEntry _ (i + 1), []) else none
  | .ended => none

/- `ClientImpl` returns, or sleeps and calls again. -/
def implAnswered (t : T) (status : RequestStatus) : ImplAt T :=
  if clientImplReturns status then .ended else .pause (t + ((1000 : ℕ) : T))

/- The target of `client.AsyncRequest("ping", ...)`. -/
def pingTarget : Str := cPrefix ++ "ping".toList

/- `RestClient::AsyncRequest` loads the error and the stop flag, then calls the session. -/
def implStep {n : ℕ} (myAsyncLambda : HandlerType) (c : Client HandlerType) (t : T) :
    ImplAt T → Option (Client HandlerType × ImplAt T × List (ProgramEvent HandlerType n))
  | .notLaunched => none
  | .testError =>
    if c.mError ≠ 0 then
      some (c, implAnswered t .sessionError, [.answered .impl .sessionError])
    else some (c, .testStop, [])
  | .testStop =>
    if c.mStopSubscriber then
      some (c, implAnswered t .endSubscribeRequest, [.answered .impl .endSubscribeRequest])
    else some (c, .calling, [])
  | .calling =>
    match Session.asyncRequest c pingTarget myAsyncLambda with
    | (c, .requestSent) => some (c, implAnswered t .requestSent,
        [.client (.requested pingTarget myAsyncLambda .requestSent),
          .answered .impl .requestSent])
    | (c, status) => some (c, .refused (t + ((1000 : ℕ) : T)),
        [.client (.requested pingTarget myAsyncLambda status)])
  | .refused wake =>
    if wake ≤ t then
      some (c, implAnswered t .sessionNotReady, [.answered .impl .sessionNotReady])
    else none
  | .pause wake => if wake ≤ t then some (c, .testError, []) else none
  | .ended => none

/-! ### The machine -/

abbrev State (p : Shipped HandlerType) (T : Type) := Program HandlerType p.mSubscriber.length T

/- Events with the instants at which they happened. -/
abbrev Log (p : Shipped HandlerType) (T : Type) :=
  List (T × ProgramEvent HandlerType p.mSubscriber.length)

def initial [Inhabited HandlerType] (p : Shipped HandlerType) (mHost : Str) : State p T :=
  ⟨Client.initial mHost, .notLaunched, .notLaunched, 0⟩

def startsLoop : Action HandlerType → Bool
  | .iocRun => true
  | _ => false

/- `run()` launches the task and then runs the `io_context`. -/
def stepAt (p : Shipped HandlerType) (s : State p T) (t : T) : ProgramAction HandlerType →
    Option (State p T × List (ProgramEvent HandlerType p.mSubscriber.length))
  | .launchTask =>
    match s.task with
    | .notLaunched =>
      if s.client.runReturned then some ({ s with task := .testStop }, []) else none
    | _ => none
  | .launchImpl =>
    match s.impl with
    | .notLaunched =>
      if s.client.runReturned then some ({ s with impl := .testError }, []) else none
    | _ => none
  | .client a =>
    if startsLoop a && !s.task.launched then none
    else (Client.step s.client a).map fun r => ({ s with client := r.1 }, r.2.map .client)
  | .task => (taskStep p.mSubscriber s.client t s.task).map fun r =>
      ({ s with client := r.1, task := r.2.1 }, r.2.2)
  | .impl => (implStep p.myAsyncLambda s.client t s.impl).map fun r =>
      ({ s with client := r.1, impl := r.2.1 }, r.2.2)

def step (p : Shipped HandlerType) : Step (State p T) (T × ProgramAction HandlerType)
    (T × ProgramEvent HandlerType p.mSubscriber.length)
  | s, (t, a) =>
    if s.now ≤ t then
      (stepAt p s t a).map fun r => ({ r.1 with now := t }, r.2.map fun e => (t, e))
    else none

end Program

/- The subscriptions of `main` (main.cpp:22-26), all of which dispatch to the decoder. -/
def mainSubscribers (dispatch : HandlerType) : Subscribers HandlerType :=
  let s := subscribeEndpointOpts [] "exchangeInfo".toList "symbol=BTCUSDT".toList [] dispatch
  let s := subscribeEndpoint s "time".toList dispatch
  let s := subscribeEndpointOpts s "trades".toList "symbol=BTCUSDT".toList
    ["limit=10".toList] dispatch
  let s := subscribeEndpointOpts s "avgPrice".toList "symbol=BTCUSDT".toList [] dispatch
  subscribeEndpointOpts s "ticker/bookTicker".toList "symbol=BTCUSDT".toList [] dispatch

end RestClient
