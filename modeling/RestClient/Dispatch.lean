import RestClient.Targets

/-!
# Dispatching a response to its decoder (decoder.hpp)

`dispatch` looks for the path of an endpoint anywhere in the target, in a fixed
order. The decoder it selects is that of the endpoint when no path tested before
occurs in the endpoint or in an option.
-/

namespace RestClient

def apiPingEvent : Str := "/api/v3/ping".toList
def apiTimeEvent : Str := "/api/v3/time".toList
def apiInfoEvent : Str := "/api/v3/exchangeInfo".toList
def apiTradeEvent : Str := "/api/v3/trades".toList

/- The virtual functions of `APIHandlerInterface`. -/
inductive Decoder where
  | decodePing
  | decodeInfo
  | decodeTime
  | decodeTrade
  | decodeOther
  deriving DecidableEq, Repr

/- `APIHandlerInterface::dispatch` (decoder.hpp:15-35): the function it calls and the
argument it passes. `result` is only printed. -/
def dispatch (data : Str) (_result : ℕ) (target : Str) : Decoder × Str :=
  if apiPingEvent <:+: target then (.decodePing, data)
  else if apiInfoEvent <:+: target then (.decodeInfo, data)
  else if apiTimeEvent <:+: target then (.decodeTime, data)
  else if apiTradeEvent <:+: target then (.decodeTrade, data)
  else (.decodeOther, data)

/- The decoder of an endpoint, by its name. -/
def endpointDecoder (request : Str) : Decoder :=
  if request = "ping".toList then .decodePing
  else if request = "exchangeInfo".toList then .decodeInfo
  else if request = "time".toList then .decodeTime
  else if request = "trades".toList then .decodeTrade
  else .decodeOther

/- Responses to a request go to the decoder of its name, whatever the options. -/
def RoutedByName (request : Str) (opts opts' : List Str) : Prop :=
  ∀ data result, dispatch data result (subscribedTarget request opts) =
      dispatch data result (subscribedTarget request opts') ∧
    dispatch data result (subscribedTarget request opts) = (endpointDecoder request, data)

/- The paths `dispatch` looks for before it reaches the branch of the request, all
four when the request has none. -/
def testedBefore (request : Str) : List Str :=
  if request = "ping".toList then []
  else if request = "exchangeInfo".toList then [apiPingEvent]
  else if request = "time".toList then [apiPingEvent, apiInfoEvent]
  else if request = "trades".toList then [apiPingEvent, apiInfoEvent, apiTimeEvent]
  else [apiPingEvent, apiInfoEvent, apiTimeEvent, apiTradeEvent]

/- A path contains neither separator, so it occurs in one of the parts. -/
theorem infix_subscribedTarget_iff {path : Str} (hq : '?' ∉ path) (ha : '&' ∉ path)
    (hne : path ≠ []) (request : Str) (opts : List Str) :
    path <:+: subscribedTarget request opts ↔
      path <:+: cPrefix ++ request ∨ ∃ o ∈ opts, path <:+: o := by
  cases opts with
  | nil => simp [subscribedTarget]
  | cons opt opts =>
    rw [subscribedTarget, getTargetOpts_eq, Separated.infix_append_cons_iff hq,
      Separated.infix_intercalate_iff ha hne]

theorem infix_own (name : Str) (opts : List Str) :
    cPrefix ++ name <:+: subscribedTarget name opts := by
  cases opts with
  | nil => exact List.infix_refl _
  | cons opt opts => exact (List.prefix_append _ _).isInfix

/- Four known names and the rest: the decoder and the paths tested before it. -/
theorem endpoint_cases (request : Str) :
    (request = "ping".toList ∧ endpointDecoder request = .decodePing ∧ testedBefore request = []) ∨
    (request = "exchangeInfo".toList ∧ endpointDecoder request = .decodeInfo ∧
      testedBefore request = [apiPingEvent]) ∨
    (request = "time".toList ∧ endpointDecoder request = .decodeTime ∧
      testedBefore request = [apiPingEvent, apiInfoEvent]) ∨
    (request = "trades".toList ∧ endpointDecoder request = .decodeTrade ∧
      testedBefore request = [apiPingEvent, apiInfoEvent, apiTimeEvent]) ∨
    (endpointDecoder request = .decodeOther ∧
      testedBefore request = [apiPingEvent, apiInfoEvent, apiTimeEvent, apiTradeEvent]) := by
  unfold endpointDecoder testedBefore
  by_cases hping : request = "ping".toList
  · exact .inl ⟨hping, if_pos hping, if_pos hping⟩
  rw [if_neg hping, if_neg hping]
  by_cases hinfo : request = "exchangeInfo".toList
  · exact .inr (.inl ⟨hinfo, if_pos hinfo, if_pos hinfo⟩)
  rw [if_neg hinfo, if_neg hinfo]
  by_cases htime : request = "time".toList
  · exact .inr (.inr (.inl ⟨htime, if_pos htime, if_pos htime⟩))
  rw [if_neg htime, if_neg htime]
  by_cases htrade : request = "trades".toList
  · exact .inr (.inr (.inr (.inl ⟨htrade, if_pos htrade, if_pos htrade⟩)))
  · exact .inr (.inr (.inr (.inr ⟨if_neg htrade, if_neg htrade⟩)))

theorem dispatch_own_iff (data : Str) (result : ℕ) (request : Str) (opts : List Str) :
    dispatch data result (subscribedTarget request opts) = (endpointDecoder request, data) ↔
      ∀ path ∈ testedBefore request, ¬ path <:+: subscribedTarget request opts := by
  rcases endpoint_cases request with ⟨rfl, hd, ht⟩ | ⟨rfl, hd, ht⟩ | ⟨rfl, hd, ht⟩ |
    ⟨rfl, hd, ht⟩ | ⟨hd, ht⟩
  · rw [hd, ht]
    generalize htarget : subscribedTarget "ping".toList opts = target
    have hping : apiPingEvent <:+: target := htarget ▸ infix_own "ping".toList opts
    simp [dispatch, hping]
  · rw [hd, ht]
    generalize htarget : subscribedTarget "exchangeInfo".toList opts = target
    have hinfo : apiInfoEvent <:+: target := htarget ▸ infix_own "exchangeInfo".toList opts
    by_cases hping : apiPingEvent <:+: target <;> simp [dispatch, hinfo, hping]
  · rw [hd, ht]
    generalize htarget : subscribedTarget "time".toList opts = target
    have htime : apiTimeEvent <:+: target := htarget ▸ infix_own "time".toList opts
    by_cases hping : apiPingEvent <:+: target <;> by_cases hinfo : apiInfoEvent <:+: target <;>
      simp [dispatch, htime, hping, hinfo]
  · rw [hd, ht]
    generalize htarget : subscribedTarget "trades".toList opts = target
    have htrade : apiTradeEvent <:+: target := htarget ▸ infix_own "trades".toList opts
    by_cases hping : apiPingEvent <:+: target <;> by_cases hinfo : apiInfoEvent <:+: target <;>
      by_cases htime : apiTimeEvent <:+: target <;>
      simp [dispatch, htrade, hping, hinfo, htime]
  · rw [hd, ht]
    generalize subscribedTarget request opts = target
    by_cases hping : apiPingEvent <:+: target <;> by_cases hinfo : apiInfoEvent <:+: target <;>
      by_cases htime : apiTimeEvent <:+: target <;>
      by_cases htrade : apiTradeEvent <:+: target <;>
      simp [dispatch, hping, hinfo, htime, htrade]

/- Every path, in the order of the tests. -/
def apiPaths : List Str := [apiPingEvent, apiInfoEvent, apiTimeEvent, apiTradeEvent]

theorem testedBefore_subset (request : Str) : testedBefore request ⊆ apiPaths := by
  have hearlier : testedBefore request <+: apiPaths := by
    rcases endpoint_cases request with
      ⟨-, -, ht⟩ | ⟨-, -, ht⟩ | ⟨-, -, ht⟩ | ⟨-, -, ht⟩ | ⟨-, ht⟩ <;>
      rw [ht]
    · exact ⟨_, rfl⟩
    · exact ⟨_, rfl⟩
    · exact ⟨_, rfl⟩
    · exact ⟨_, rfl⟩
    · exact ⟨[], rfl⟩
  exact hearlier.subset

theorem apiPaths_separable : ∀ path ∈ apiPaths, '?' ∉ path ∧ '&' ∉ path ∧ path ≠ [] := by
  decide

/-- Responses are routed by the name of the endpoint, whatever the options, exactly
when no path that `dispatch` tests before the endpoint's own occurs in the
prefixed request or in an option. -/
theorem routedByName_iff (request : Str) (opts opts' : List Str) :
    RoutedByName request opts opts' ↔
      ∀ path ∈ testedBefore request, ¬ path <:+: cPrefix ++ request ∧
        ∀ o ∈ opts ++ opts', ¬ path <:+: o := by
  have hsplit : ∀ path ∈ testedBefore request, ∀ os : List Str,
      ¬ path <:+: subscribedTarget request os ↔
        ¬ path <:+: cPrefix ++ request ∧ ∀ o ∈ os, ¬ path <:+: o := by
    intro path hpath os
    obtain ⟨hq, ha, hne⟩ := apiPaths_separable path (testedBefore_subset request hpath)
    rw [infix_subscribedTarget_iff hq ha hne]
    simp [not_or]
  constructor
  · intro h path hpath
    obtain ⟨hsame, hown⟩ := h [] 0
    have hfirst :=
      (hsplit path hpath opts).mp ((dispatch_own_iff [] 0 request opts).mp hown path hpath)
    have hsecond := (hsplit path hpath opts').mp
      ((dispatch_own_iff [] 0 request opts').mp (hsame.symm.trans hown) path hpath)
    refine ⟨hfirst.1, ?_⟩
    intro o ho
    rcases List.mem_append.mp ho with ho | ho
    · exact hfirst.2 o ho
    · exact hsecond.2 o ho
  · intro h data result
    have hown : ∀ os : List Str, os ⊆ opts ++ opts' →
        dispatch data result (subscribedTarget request os) = (endpointDecoder request, data) := by
      intro os hos
      refine (dispatch_own_iff data result request os).mpr ?_
      intro path hpath
      refine (hsplit path hpath os).mpr ⟨(h path hpath).1, ?_⟩
      intro o ho
      exact (h path hpath).2 o (hos ho)
    have hfirst := hown opts (List.subset_append_left opts opts')
    have hsecond := hown opts' (List.subset_append_right opts opts')
    exact ⟨hfirst.trans hsecond.symm, hfirst⟩

/-- An option that contains the path of another endpoint, and a name that extends one. -/
theorem misrouted :
    ¬ RoutedByName "time".toList [] ["next=/api/v3/ping".toList] ∧
    ¬ RoutedByName "timeline".toList [] [] := by
  constructor
  · intro h
    have hsame := (h [] 0).1
    revert hsame
    decide
  · intro h
    have hown := (h [] 0).2
    revert hown
    decide

end RestClient
