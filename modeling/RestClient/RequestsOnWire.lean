import RestClient.HttpGrammar
import RestClient.SessionAccounts
import RestClient.Targets

/-!
# The requests on the connection

`ExecRequest` writes the request prepared by the constructor with the target of the
call. No layer from `SubscribeEndpoint` and `AsyncRequest` down to the vendored
`target`, whose documentation leaves the syntax to its caller, looks at the characters
of the arguments.
-/

namespace RestClient
open Machine Parsing
variable {HandlerType : Type}

/- A call whose target reaches `ExecRequest`: the one `SubscribeEndpoint` stores
(`subscribeEndpointOpts_eq`) or the one `RestClient::AsyncRequest` passes on. -/
inductive Requested where
  | subscribed (request : Str) (opts : List Str)
  | asked (request : Str)
  deriving DecidableEq

namespace Requested

def target : Requested → Str
  | subscribed request opts => subscribedTarget request opts
  | asked request => cPrefix ++ request

def arguments : Requested → List Str
  | subscribed request opts => request :: opts
  | asked request => [request]

/- The arguments have only characters of a target. -/
def Clean (c : Requested) : Prop := ∀ arg ∈ c.arguments, ∀ ch ∈ arg, isPathchar ch = true

instance (c : Requested) : Decidable c.Clean :=
  decidable_of_iff (c.arguments.all fun arg => arg.all isPathchar) (by simp [Clean])

theorem forall_mem_getTargetOpts (opt : Str) (opts : List Str) :
    (∀ ch ∈ helper.getTargetOpts opt opts, isPathchar ch = true) ↔
      ∀ arg ∈ opt :: opts, ∀ ch ∈ arg, isPathchar ch = true := by
  have hjoin : ∀ ss : Str,
      (∀ ch ∈ opts.foldl (fun ss o => ss ++ '&' :: o) ss, isPathchar ch = true) ↔
        (∀ ch ∈ ss, isPathchar ch = true) ∧ ∀ arg ∈ opts, ∀ ch ∈ arg, isPathchar ch = true := by
    induction opts with
    | nil => simp
    | cons o opts ih =>
      intro ss
      have hamp : isPathchar '&' = true := by decide
      rw [List.foldl_cons, ih]
      simp only [List.forall_mem_append, List.forall_mem_cons, hamp, true_and, and_assoc]
  have hquestion : isPathchar '?' = true := by decide
  rw [helper.getTargetOpts, hjoin]
  simp only [List.forall_mem_cons, hquestion, true_and]

theorem forall_mem_prefixed (rest : Str) :
    (∀ ch ∈ cPrefix ++ rest, isPathchar ch = true) ↔ ∀ ch ∈ rest, isPathchar ch = true := by
  have hprefix : ∀ ch ∈ cPrefix, isPathchar ch = true := List.all_eq_true.mp (by decide)
  rw [List.forall_mem_append, and_iff_right hprefix]

/- What the code adds to the arguments is harmless. -/
theorem clean_iff (c : Requested) : c.Clean ↔ ∀ ch ∈ c.target, isPathchar ch = true := by
  cases c with
  | asked request =>
    rw [target, forall_mem_prefixed]
    exact List.forall_mem_singleton
  | subscribed request opts =>
    cases opts with
    | nil =>
      rw [target, subscribedTarget, forall_mem_prefixed]
      exact List.forall_mem_singleton
    | cons opt opts =>
      rw [target, subscribedTarget, List.append_assoc, forall_mem_prefixed,
        List.forall_mem_append, forall_mem_getTargetOpts]
      exact List.forall_mem_cons

theorem target_ne_nil (c : Requested) : c.target ≠ [] := by
  have hlong : ∀ rest : Str, cPrefix ++ rest ≠ [] := by
    intro rest hnil
    exact absurd (List.append_eq_nil_iff.mp hnil).1 (by decide)
  cases c with
  | asked request => exact hlong request
  | subscribed request opts =>
    cases opts with
    | nil => exact hlong request
    | cons opt opts =>
      rw [target, subscribedTarget, List.append_assoc]
      exact hlong _

end Requested

/-! ### The fields of the constructor -/

/- The host, its blanks at both ends aside, may stand in a line. -/
def HostClean (mHost : Str) : Prop := ∀ ch ∈ trim mHost, isFieldChar ch = true

instance (mHost : Str) : Decidable (HostClean mHost) :=
  decidable_of_iff ((trim mHost).all isFieldChar) List.all_eq_true

theorem trim_front (s : Str) : ∀ c, (trim s).head? = some c → isBlank c = false := by
  intro c hc
  obtain ⟨tail, htail⟩ := List.rdropWhile_prefix isBlank (s.dropWhile isBlank)
  have hhead : (s.dropWhile isBlank).head? = some c := by
    rw [trim, trimBack] at hc
    rw [← htail, List.head?_append, hc]
    rfl
  exact dropWhile_front s c hhead

theorem writtenField_host {mHost : Str} (h : HostClean mHost) :
    WrittenField ("Host".toList, trim mHost) where
  named := List.cons_ne_nil _ _
  token := List.all_eq_true.mp (show "Host".toList.all isTokenChar = true by decide)
  value := h
  front := trim_front mHost
  back := List.rdropWhile_idempotent isBlank _

theorem writtenField_agent : WrittenField ("User-Agent".toList, "Boost.Beast/328".toList) where
  named := by decide
  token := List.all_eq_true.mp (by decide)
  value := List.all_eq_true.mp (by decide)
  front := by
    intro c hc
    cases hc
    decide
  back := by decide

theorem plain_prepared {mHost : Str} (h : HostClean mHost) (t : Str) :
    Plain ((Session.preparedRequest mHost).setTarget t) where
  method := rfl
  version := rfl
  fields := by
    intro f hf
    rcases List.mem_cons.mp hf with rfl | hf
    · exact writtenField_host h
    · rw [List.mem_singleton.mp hf]
      exact writtenField_agent
  few := show 2 < 8192 by omega
  bodyless := rfl

/-! ### What is handed to `async_write` -/

/- The message of a call, and what a server makes of it. -/
def messageTo (mHost target : Str) : HttpRequest :=
  (Session.preparedRequest mHost).setTarget target

structure Prepared (mHost : Str) (s : Client HandlerType) (log : List (Event HandlerType)) :
    Prop where
  request : ∀ t, s.mHttpRequest.setTarget t = messageTo mHost t
  handed : Client.handed log = (Client.accepted log).map fun c => messageTo mHost c.1

theorem prepared_quiet {mHost : Str} {s s' : Client HandlerType}
    {log es : List (Event HandlerType)} (h : Prepared mHost s log)
    (hreq : ∀ t, s'.mHttpRequest.setTarget t = s.mHttpRequest.setTarget t)
    (ha : Client.accepted es = []) (hh : Client.handed es = []) :
    Prepared mHost s' (log ++ es) := by
  refine ⟨fun t => (hreq t).trans (h.request t), ?_⟩
  rw [Client.handed_append, Client.accepted_append, ha, hh, List.append_nil, List.append_nil]
  exact h.handed

theorem prepared_step {mHost : Str} {s s' : Client HandlerType} {log es : List (Event HandlerType)}
    {a : Action HandlerType} (h : Prepared mHost s log)
    (hs : Client.step s a = some (s', es)) : Prepared mHost s' (log ++ es) := by
  cases Client.move_of_step hs with
  | add request hdl rest mRequest slot hc hp ha =>
    refine ⟨h.request, ?_⟩
    rw [RequestBuffer.stored_of_add ha, h.request request, Client.handed_append,
      Client.accepted_append, List.map_append, h.handed]
    rfl
  | refuse request hdl rest hc hp hf => exact prepared_quiet h (fun _ => rfl) rfl rfl
  | _ => exact prepared_quiet h (fun _ => rfl) rfl rfl

theorem prepared_of_run [Inhabited HandlerType] {mHost : Str} {as : List (Action HandlerType)}
    {s : Client HandlerType} {log : List (Event HandlerType)}
    (h : Run Client.step (Client.initial mHost) as s log) : Prepared mHost s log :=
  h.invariant (Prepared mHost) ⟨fun _ => rfl, rfl⟩ fun _ _ _ _ _ => prepared_step

/-! ### What a server reads -/

/- A server that is sent the messages sees one request for each call, its target and
nothing else taken from the arguments; and so for all of them one after the other. -/
structure OneRequestPerCall (bodyOf : List (Str × Str) → Parser Char Str) (mHost : Str)
    (calls : List Requested) (messages : List HttpRequest) : Prop where
  each : messages.map (fun r => parseRequests bodyOf r.serialize) =
    calls.map fun c => some [(messageTo mHost c.target).received]
  sequence : parseRequests bodyOf (messages.flatMap HttpRequest.serialize) =
    some (calls.map fun c => (messageTo mHost c.target).received)

theorem oneRequestPerCall_iff (bodyOf : List (Str × Str) → Parser Char Str) (mHost : Str)
    (calls : List Requested) :
    OneRequestPerCall bodyOf mHost calls (calls.map fun c => messageTo mHost c.target) ↔
      ∀ c ∈ calls, c.Clean ∧ HostClean mHost := by
  constructor
  · intro h c hc
    have hread := parseRequests_legible h.sequence _ (List.mem_map_of_mem hc)
    exact ⟨c.clean_iff.mpr hread.target, hread.values _ (List.mem_cons_self ..)⟩
  · intro h
    have hgood : ∀ c ∈ calls, Plain (messageTo mHost c.target) ∧
        (messageTo mHost c.target).target ≠ [] ∧
        ∀ ch ∈ (messageTo mHost c.target).target, isPathchar ch = true :=
      fun c hc => ⟨plain_prepared (h c hc).2 _, c.target_ne_nil, c.clean_iff.mp (h c hc).1⟩
    constructor
    · rw [List.map_map]
      refine List.map_congr_left fun c hc => ?_
      have hone := parseRequests_serialize bodyOf (List.forall_mem_singleton.mpr (hgood c hc))
      rwa [List.flatMap_singleton] at hone
    · rw [parseRequests_serialize bodyOf (List.forall_mem_map.mpr hgood), List.map_map]
      rfl

/-- What a run writes is read as one request for each call, exactly when no argument of a
call has a character that ends a target and the host none that ends a line. It is read by the
request syntax of the vendored parser, however long the header; a server that keeps to the
standard refuses some of the targets and hosts that are read here. -/
theorem one_request_per_call_iff [Inhabited HandlerType]
    (bodyOf : List (Str × Str) → Parser Char Str) (mHost : Str) (calls : List Requested)
    (as : List (Action HandlerType)) (s : Client HandlerType) (log : List (Event HandlerType))
    (h : Run Client.step (Client.initial mHost) as s log)
    (hcalls : (Client.accepted log).map Prod.fst = calls.map Requested.target) :
    OneRequestPerCall bodyOf mHost calls (Client.handed log) ↔
      ∀ c ∈ calls, c.Clean ∧ HostClean mHost := by
  have hmessages : Client.handed log = calls.map fun c => messageTo mHost c.target := by
    have hmap := congrArg (List.map (messageTo mHost)) hcalls
    rw [List.map_map, List.map_map] at hmap
    exact (prepared_of_run h).handed.trans hmap
  rw [hmessages]
  exact oneRequestPerCall_iff bodyOf mHost calls

/- A subscription with two options and a request of the client. -/
theorem one_request_per_call_two :
    ∃ (s : Client ℕ) (log : List (Event ℕ)),
      (∃ as, Run Client.step (Client.initial "api.binance.com".toList) as s log) ∧
      (Client.accepted log).map Prod.fst =
        ["/api/v3/trades?symbol=BTCUSDT&limit=10".toList, "/api/v3/ping".toList] ∧
      OneRequestPerCall (fun _ => ret []) "api.binance.com".toList
        [.subscribed "trades".toList ["symbol=BTCUSDT".toList, "limit=10".toList],
          .asked "ping".toList] (Client.handed log) := by
  let as : List (Action ℕ) := Client.startUp ++
    [.asyncRequest "/api/v3/trades?symbol=BTCUSDT&limit=10".toList 1, .execRequest,
      .asyncRequest "/api/v3/ping".toList 2, .execRequest]
  obtain ⟨s, log, hr, hlog⟩ := run_of_observed Client.step
    (Client.initial "api.binance.com".toList) as (fun r => (Client.accepted r.2).map Prod.fst)
    (show _ = some ["/api/v3/trades?symbol=BTCUSDT&limit=10".toList, "/api/v3/ping".toList] by
      decide +kernel)
  refine ⟨s, log, ⟨as, hr⟩, hlog, ?_⟩
  exact (one_request_per_call_iff (fun _ => ret []) _
    [.subscribed "trades".toList ["symbol=BTCUSDT".toList, "limit=10".toList],
      .asked "ping".toList] as s log hr (hlog.trans (by decide))).mpr (by decide)

/- One call of `AsyncRequest` whose argument carries a second request. -/
def splitting : Requested := .asked "ping HTTP/1.1\r\nHost: h\r\n\r\nGET /api/v3/time".toList

theorem splitting_call :
    ∃ (s : Client ℕ) (log : List (Event ℕ)),
      (∃ as, Run Client.step (Client.initial "h".toList) as s log) ∧
      (Client.accepted log).map Prod.fst = [splitting.target] ∧
      (parseRequests (fun _ => ret []) ((Client.handed log).flatMap HttpRequest.serialize)).map
        (List.map ParsedRequest.target) =
          some ["/api/v3/ping".toList, "/api/v3/time".toList] ∧
      ¬ OneRequestPerCall (fun _ => ret []) "h".toList [splitting] (Client.handed log) := by
  let as : List (Action ℕ) :=
    Client.startUp ++ [.asyncRequest splitting.target 1, .execRequest]
  obtain ⟨s, log, hr, hlog⟩ := run_of_observed Client.step (Client.initial "h".toList) as
    (fun r => ((Client.accepted r.2).map Prod.fst,
      (parseRequests (fun _ => ret []) ((Client.handed r.2).flatMap HttpRequest.serialize)).map
        (List.map ParsedRequest.target)))
    (show _ = some ([splitting.target], some ["/api/v3/ping".toList, "/api/v3/time".toList]) by
      decide +kernel)
  obtain ⟨htarget, hread⟩ := Prod.mk.inj hlog
  refine ⟨s, log, ⟨as, hr⟩, htarget, hread, ?_⟩
  intro h
  rw [h.sequence] at hread
  exact absurd hread (by decide)

end RestClient
