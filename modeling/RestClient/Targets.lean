import RestClient.Lib.Separated
import RestClient.Session

/-!
# The targets of subscriptions (helper.hpp, rest_client.cpp)

`SubscribeEndpoint` stores the prefix, the request and the options: the first
after `?`, each of the others after `&`.
-/

namespace RestClient
variable {HandlerType : Type}

namespace helper

/- `GetTargetOpts` (helper.hpp:49-58). `vecOpts[0]` is `opt`; the loop takes the others. -/
def getTargetOpts (opt : Str) (opts : List Str) : Str :=
  opts.foldl (fun ss o => ss ++ '&' :: o) ('?' :: opt)

end helper

/- The subscriptions of a client: what its task requests in turn. -/
abbrev Subscribers (HandlerType : Type) := List (Str × HandlerType)

/- `SubscribeEndpoint(request)` and `SubscribeEndpoint(request, fn)`
(rest_client.cpp:30-46); without `fn` the callback is the one that dispatches. -/
def subscribeEndpoint (mSubscriber : Subscribers HandlerType) (request : Str)
    (callbackFunc : HandlerType) : Subscribers HandlerType :=
  let newRequest := cPrefix ++ request
  mSubscriber ++ [(newRequest, callbackFunc)]

/- `SubscribeEndpoint(request, opts...)` with at least one option (rest_client.cpp:48-60). -/
def subscribeEndpointOpts (mSubscriber : Subscribers HandlerType) (request opt : Str)
    (opts : List Str) (callbackFunc : HandlerType) : Subscribers HandlerType :=
  let newRequest := cPrefix ++ request
  let newRequest := newRequest ++ helper.getTargetOpts opt opts
  mSubscriber ++ [(newRequest, callbackFunc)]

/- The target stored for a request and its options, none included. -/
def subscribedTarget (request : Str) : List Str → Str
  | [] => cPrefix ++ request
  | opt :: opts => cPrefix ++ request ++ helper.getTargetOpts opt opts

theorem subscribeEndpointOpts_eq (mSubscriber : Subscribers HandlerType) (request opt : Str)
    (opts : List Str) (fn : HandlerType) :
    subscribeEndpointOpts mSubscriber request opt opts fn =
      mSubscriber ++ [(subscribedTarget request (opt :: opts), fn)] := rfl

theorem getTargetOpts_eq (opt : Str) (opts : List Str) :
    helper.getTargetOpts opt opts = '?' :: ['&'].intercalate (opt :: opts) := by
  have hjoin := Separated.foldl_append_eq '&' ('?' :: opt) opts
  exact hjoin.trans (Separated.intercalate_append_head '&' ['?'] opt opts)

/-! ### Reading a target back -/

/- What follows the prefix, if the target has it. -/
def withoutPrefix (target : Str) : Option Str :=
  if cPrefix.isPrefixOf target then some (target.drop cPrefix.length) else none

/- Cuts at the first `?` and splits the remainder at every `&`. -/
def readTarget (target : Str) : Option (Str × List Str) :=
  (withoutPrefix target).map fun rest =>
    (rest.takeWhile (· != '?'), ((rest.dropWhile (· != '?')).drop 1).splitOn '&')

theorem withoutPrefix_append (rest : Str) : withoutPrefix (cPrefix ++ rest) = some rest := by
  have hprefixed : cPrefix.isPrefixOf (cPrefix ++ rest) = true :=
    List.isPrefixOf_iff_prefix.mpr (List.prefix_append cPrefix rest)
  rw [withoutPrefix, if_pos hprefixed, List.drop_left]

theorem readTarget_subscribed {request opt : Str} {opts : List Str} (hr : '?' ∉ request)
    (ho : ∀ o ∈ opt :: opts, '&' ∉ o) :
    readTarget (subscribedTarget request (opt :: opts)) = some (request, opt :: opts) := by
  have hrest : ∀ c ∈ request, (c != '?') = true := by
    intro c hc
    rw [bne_iff_ne]
    intro heq
    exact hr (heq ▸ hc)
  have htarget : subscribedTarget request (opt :: opts) =
      cPrefix ++ (request ++ '?' :: ['&'].intercalate (opt :: opts)) := by
    rw [← getTargetOpts_eq, ← List.append_assoc]
    rfl
  rw [readTarget, htarget, withoutPrefix_append, Option.map_some,
    List.takeWhile_append_of_pos hrest, List.dropWhile_append_of_pos hrest]
  have hsplit := List.splitOn_intercalate '&' ho (List.cons_ne_nil opt opts)
  simp [hsplit]

/-- What `SubscribeEndpoint` stores determines the request and the options, so
subscriptions that differ in either have different targets. -/
theorem targets_unambiguous (mSubscriber : Subscribers HandlerType) (request opt : Str)
    (opts : List Str) (fn : HandlerType) (hr : '?' ∉ request)
    (ho : ∀ o ∈ opt :: opts, '&' ∉ o) :
    ∃ target, subscribeEndpointOpts mSubscriber request opt opts fn =
        mSubscriber ++ [(target, fn)] ∧
      readTarget target = some (request, opt :: opts) ∧
      ∀ (mSubscriber' : Subscribers HandlerType) (request' opt' : Str) (opts' : List Str)
        (fn' : HandlerType), '?' ∉ request' → (∀ o ∈ opt' :: opts', '&' ∉ o) →
        subscribeEndpointOpts mSubscriber' request' opt' opts' fn' =
          mSubscriber' ++ [(target, fn')] → (request', opt' :: opts') = (request, opt :: opts) := by
  have hread := readTarget_subscribed hr ho
  refine ⟨_, subscribeEndpointOpts_eq .., hread, ?_⟩
  intro mSubscriber' request' opt' opts' fn' hr' ho' hsame
  have hstored := List.append_cancel_left ((subscribeEndpointOpts_eq ..).symm.trans hsame)
  have htarget :
      subscribedTarget request' (opt' :: opts') = subscribedTarget request (opt :: opts) :=
    congrArg Prod.fst (List.cons.inj hstored).1
  have hread' := readTarget_subscribed hr' ho'
  rw [htarget, hread] at hread'
  exact (Option.some.inj hread').symm

/- An empty option, and options with `?` and `=`. -/
theorem targets_unambiguous_mixed :
    ∃ target, subscribeEndpointOpts [] "trades".toList [] ["a=?".toList, []] () = [(target, ())] ∧
      target = "/api/v3/trades?&a=?&".toList ∧
      readTarget target = some ("trades".toList, [[], "a=?".toList, []]) := by
  obtain ⟨target, hstored, hread, -⟩ := targets_unambiguous [] "trades".toList []
    ["a=?".toList, []] () (by decide) (by decide)
  have htarget := congrArg Prod.fst (List.cons.inj hstored).1
  exact ⟨target, hstored, htarget.symm, hread⟩

end RestClient
