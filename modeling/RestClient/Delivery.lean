import RestClient.SessionAccounts

/-!
# Callbacks are called in the order of the requests

Callbacks are matched to responses by position only: each message read takes
the oldest entry of the ring, if the ring has one. The order of the callbacks
is that of the `ExecRequest` calls, whatever the order of the completions.
-/

namespace RestClient.Client
open Machine
variable {HandlerType : Type}

/- The calls of `Session::ExecRequest` in a run. -/
def execRequests (as : List (Action HandlerType)) : ℕ :=
  as.countP fun a =>
    match a with
    | .execRequest => true
    | _ => false

/- The requests added whose callback has not been invoked, oldest first. -/
def outstanding (log : List (Event HandlerType)) : List (Str × HandlerType) :=
  (accepted log).drop (invoked log).length

theorem Accounted.outstanding_eq {s : Client HandlerType} {log : List (Event HandlerType)}
    (h : Accounted s log) :
    outstanding log =
      (s.mRequest.entries (invoked log).length (accepted log).length).map entryCall := by
  unfold outstanding
  conv_lhs => rw [h.ring.balance]
  exact List.drop_left' (List.length_map _)

theorem Accounted.calls_prefix {s : Client HandlerType} {log : List (Event HandlerType)}
    (h : Accounted s log) : (invoked log).map Invocation.call <+: accepted log :=
  ⟨_, h.ring.balance.symm⟩

theorem Accounted.call_at {s : Client HandlerType} {log : List (Event HandlerType)}
    (h : Accounted s log) {k : ℕ} {i : Invocation HandlerType} (hk : (invoked log)[k]? = some i) :
    (accepted log)[k]? = some i.call := by
  have hmapped : ((invoked log).map Invocation.call)[k]? = some i.call := by
    rw [List.getElem?_map, hk]
    rfl
  have hlt := (List.getElem?_eq_some_iff.mp hmapped).1
  rw [h.ring.balance, List.getElem?_append_left hlt]
  exact hmapped

theorem accepted_le_execRequests {s₀ s : Client HandlerType} {as : List (Action HandlerType)}
    {log : List (Event HandlerType)} (h : Run step s₀ as s log) :
    (accepted log).length ≤ execRequests as := by
  induction h with
  | nil => exact Nat.le_refl 0
  | @snoc as s log a s' es hr hs ih =>
    have hstep : (accepted es).length ≤ execRequests [a] := by
      cases move_of_step hs with
      | add request hdl rest mRequest slot hc hp ha => exact Nat.le_refl 1
      | _ => exact Nat.zero_le _
    have hcount : execRequests (as ++ [a]) = execRequests as + execRequests [a] :=
      List.countP_append
    rw [accepted_append, List.length_append, hcount]
    omega

/- A message read takes the oldest outstanding request, if the ring shows one. -/
theorem delivered_of_read {s s' : Client HandlerType} {log es : List (Event HandlerType)}
    {response : HttpResponse} (h : Accounted s log)
    (hs : step s (.onRead 0 response) = some (s', es)) :
    if s.mRequest.mReadPos < s.mRequest.mWritePos then
      ∃ req hdl rest, outstanding log = (req, hdl) :: rest ∧
        invoked es = [⟨hdl, response.body, response.status, req⟩]
    else s'.mRequest = s.mRequest ∧ invoked es = [] := by
  cases move_of_step hs with
  | readFailed ec response hc hr he => contradiction
  | deliver response mRequest req hdl hc hr hg =>
    have hne := RequestBuffer.nonempty_of_get hg
    obtain ⟨b', v, hget, _, _, _, hentries⟩ := h.ring.positions.get hne
    rw [hget] at hg
    cases hg
    rw [if_pos hne]
    have hout := h.outstanding_eq
    rw [hentries] at hout
    exact ⟨req.target, hdl, _, hout, rfl⟩
  | unsolicited response hc hr hg =>
    rw [if_neg hg]
    exact ⟨rfl, rfl⟩

theorem Accounted.outstanding_nil_iff {s : Client HandlerType} {log : List (Event HandlerType)}
    (h : Accounted s log) (hcount : (accepted log).length < 2 ^ 64) :
    outstanding log = [] ↔ ¬ s.mRequest.mReadPos < s.mRequest.mWritePos := by
  have hle := h.ring.positions.le
  rw [h.ring.positions.nonempty_iff hcount, outstanding, List.drop_eq_nil_iff]
  omega

/-- The callbacks invoked are those of the first requests added, in their order.
A response read next goes to the oldest outstanding request, and to none when
there is none; the ring is then unchanged. -/
theorem callbacks_in_order [Inhabited HandlerType] (mHost : Str) (as : List (Action HandlerType))
    (s : Client HandlerType) (log : List (Event HandlerType))
    (h : Run step (initial mHost) as s log) (hcount : execRequests as < 2 ^ 64) :
    (invoked log).map Invocation.call <+: accepted log ∧
    ∀ response s' es, step s (.onRead 0 response) = some (s', es) →
      (invoked es).map Invocation.call = (outstanding log).take 1 ∧
      (outstanding log = [] → s'.mRequest = s.mRequest) := by
  have hacc := accounted_of_run h
  have hsmall : (accepted log).length < 2 ^ 64 :=
    Nat.lt_of_le_of_lt (accepted_le_execRequests h) hcount
  refine ⟨hacc.calls_prefix, ?_⟩
  intro response s' es hs
  have hread := delivered_of_read hacc hs
  by_cases hne : s.mRequest.mReadPos < s.mRequest.mWritePos
  · rw [if_pos hne] at hread
    obtain ⟨req, hdl, rest, hout, hinvoked⟩ := hread
    rw [hinvoked, hout]
    exact ⟨rfl, fun hnil => by cases hnil⟩
  · rw [if_neg hne] at hread
    obtain ⟨hsame, hinvoked⟩ := hread
    rw [hinvoked, (hacc.outstanding_nil_iff hsmall).mpr hne]
    exact ⟨rfl, fun _ => hsame⟩

/- Two requests in flight, a request issued by the first callback, an early
response, and a response that no request is waiting for. -/
theorem callbacks_in_order_pipelined :
    ∃ (s : Client ℕ) (log : List (Event ℕ)),
      (invoked log).map Invocation.call = [("/ping".toList, 1), ("/time".toList, 2)] ∧
      (invoked log).map Invocation.call <+: accepted log ∧
      ∀ response s' es, step s (.onRead 0 response) = some (s', es) →
        (invoked es).map Invocation.call = [("/trades".toList, 3)] := by
  let as : List (Action ℕ) := startUp ++
    [.onRead 0 ⟨200, []⟩, .asyncRequest "/ping".toList 1, .asyncRequest "/time".toList 2,
      .execRequest, .execRequest, .onRead 0 ⟨200, "a".toList⟩,
      .asyncRequest "/trades".toList 3, .callbackReturn, .onWrite 0 0, .execRequest,
      .onRead 0 ⟨404, "b".toList⟩, .callbackReturn]
  obtain ⟨s, log, hr, hlog⟩ := run_of_observed step (initial "h".toList : Client ℕ) as
    (fun r => ((invoked r.2).map Invocation.call, outstanding r.2))
    (show _ = some ([("/ping".toList, 1), ("/time".toList, 2)], [("/trades".toList, 3)]) by
      decide +kernel)
  obtain ⟨hinvoked, hout⟩ := Prod.mk.inj hlog
  obtain ⟨hcalls, hnext⟩ := callbacks_in_order _ as s log hr (by decide)
  refine ⟨s, log, hinvoked, hcalls, ?_⟩
  intro response s' es hs
  rw [(hnext response s' es hs).1, hout]
  rfl

end RestClient.Client
