import RestClient.SessionMoves

/-!
# What a run has done

The log of a run gives the requests added to the ring, those handed to
`async_write` and the callbacks invoked, each in its order. `Accounted` ties
these lists to the ring and to the outstanding writes; it holds after every run.
-/

namespace RestClient
open Machine
variable {HandlerType : Type}

/- The request and the callback an invocation is about. -/
def Invocation.call (i : Invocation HandlerType) : Str × HandlerType := (i.target, i.hdl)

/- The request and the callback a ring entry is about. -/
def entryCall (e : RequestType HandlerType) : Str × HandlerType := (e.1.target, e.2)

namespace Client

/-! ### Reading the log -/

/- The calls of `Session::AsyncRequest` that returned `RequestSent`. -/
def sent (log : List (Event HandlerType)) : List (Str × HandlerType) :=
  log.filterMap fun e =>
    match e with
    | .requested request hdl .requestSent => some (request, hdl)
    | _ => none

/- The calls of `Session::ExecRequest` whose `mRequest.add` succeeded. -/
def accepted (log : List (Event HandlerType)) : List (Str × HandlerType) :=
  log.filterMap fun e =>
    match e with
    | .added request hdl _ => some (request, hdl)
    | _ => none

/- The messages handed to `http::async_write`. -/
def handed (log : List (Event HandlerType)) : List HttpRequest :=
  log.filterMap fun e =>
    match e with
    | .writeStarted _ message => some message
    | _ => none

/- The calls of user callbacks. -/
def invoked (log : List (Event HandlerType)) : List (Invocation HandlerType) :=
  log.filterMap fun e =>
    match e with
    | .invoked call => some call
    | _ => none

/- The messages successfully read. -/
def responsesRead (log : List (Event HandlerType)) : List HttpResponse :=
  log.filterMap fun e =>
    match e with
    | .responseRead response => some response
    | _ => none

/- The set-up steps that succeeded. -/
def setupDone (log : List (Event HandlerType)) : List SetupStep :=
  log.filterMap fun e =>
    match e with
    | .done op => some op
    | _ => none

@[simp] theorem sent_append (log es : List (Event HandlerType)) :
    sent (log ++ es) = sent log ++ sent es := List.filterMap_append

@[simp] theorem accepted_append (log es : List (Event HandlerType)) :
    accepted (log ++ es) = accepted log ++ accepted es := List.filterMap_append

@[simp] theorem handed_append (log es : List (Event HandlerType)) :
    handed (log ++ es) = handed log ++ handed es := List.filterMap_append

@[simp] theorem invoked_append (log es : List (Event HandlerType)) :
    invoked (log ++ es) = invoked log ++ invoked es := List.filterMap_append

@[simp] theorem responsesRead_append (log es : List (Event HandlerType)) :
    responsesRead (log ++ es) = responsesRead log ++ responsesRead es := List.filterMap_append

@[simp] theorem setupDone_append (log es : List (Event HandlerType)) :
    setupDone (log ++ es) = setupDone log ++ setupDone es := List.filterMap_append

theorem responsesRead_of_read {s s' : Client HandlerType} {es : List (Event HandlerType)}
    {response : HttpResponse} (hs : step s (.onRead 0 response) = some (s', es)) :
    responsesRead es = [response] := by
  cases move_of_step hs with
  | readFailed ec response hc hr he => contradiction
  | deliver => rfl
  | unsolicited => rfl

theorem quiet_of_not_read {s s' : Client HandlerType} {a : Action HandlerType}
    {es : List (Event HandlerType)} (ha : ∀ response, a ≠ .onRead 0 response)
    (hs : step s a = some (s', es)) : responsesRead es = [] ∧ invoked es = [] := by
  cases move_of_step hs with
  | deliver response => exact absurd rfl (ha response)
  | unsolicited response => exact absurd rfl (ha response)
  | _ => exact ⟨rfl, rfl⟩

/-! ### The accounts -/

/- The requests added are those whose callback was invoked, then those in the ring. -/
structure Balanced (s : Client HandlerType) (log : List (Event HandlerType)) : Prop where
  positions : s.mRequest.Positions (invoked log).length (accepted log).length
  balance : accepted log = (invoked log).map Invocation.call ++
    (s.mRequest.entries (invoked log).length (accepted log).length).map entryCall

/- Every request added was handed to `async_write` with its own target, and an
outstanding write refers to the slot of its own request. -/
structure Handed (s : Client HandlerType) (log : List (Event HandlerType)) : Prop where
  started : s.writesStarted = (accepted log).length
  targets : (handed log).map HttpRequest.target = (accepted log).map Prod.fst
  slots : ∀ op ∈ s.writes, op.serial < s.writesStarted ∧
    op.slot = RingWindow.slotOf RingSize.standard.mSize.toNat op.serial

structure Accounted (s : Client HandlerType) (log : List (Event HandlerType)) : Prop where
  ring : Balanced s log
  writes : Handed s log

theorem Accounted.handed_length {s : Client HandlerType} {log : List (Event HandlerType)}
    (h : Accounted s log) : (handed log).length = (accepted log).length := by
  simpa only [List.length_map] using congrArg List.length h.writes.targets

theorem initial_accounted [Inhabited HandlerType] (mHost : Str) :
    Accounted (initial mHost : Client HandlerType) [] where
  ring := ⟨RequestBuffer.positions_initial, rfl⟩
  writes := ⟨rfl, rfl, by intro op ho; cases ho⟩

/- A step that neither adds nor delivers. -/
theorem accounted_quiet {s s' : Client HandlerType} {log es : List (Event HandlerType)}
    (h : Accounted s log) (hm : s'.mRequest = s.mRequest)
    (hn : s'.writesStarted = s.writesStarted) (hw : s'.writes ⊆ s.writes)
    (ha : accepted es = []) (hi : invoked es = []) (hh : handed es = []) :
    Accounted s' (log ++ es) := by
  obtain ⟨⟨hpos, hbal⟩, ⟨hstart, htargets, hslots⟩⟩ := h
  have hadded : accepted (log ++ es) = accepted log := by
    rw [accepted_append, ha, List.append_nil]
  have hcalled : invoked (log ++ es) = invoked log := by
    rw [invoked_append, hi, List.append_nil]
  have hwritten : handed (log ++ es) = handed log := by
    rw [handed_append, hh, List.append_nil]
  refine ⟨⟨?_, ?_⟩, ?_, ?_, ?_⟩
  · rw [hm, hadded, hcalled]
    exact hpos
  · rw [hm, hadded, hcalled]
    exact hbal
  · rw [hn, hadded]
    exact hstart
  · rw [hadded, hwritten]
    exact htargets
  · intro op ho
    rw [hn]
    exact hslots op (hw ho)

theorem accounted_add {s : Client HandlerType} {log : List (Event HandlerType)}
    (h : Accounted s log) {request : Str} {hdl : HandlerType} {rest : List (Str × HandlerType)}
    {mRequest : RequestBuffer HandlerType .standard}
    {slot : Fin RingSize.standard.mSize.toNat}
    (ha : s.mRequest.add (s.mHttpRequest.setTarget request) hdl = .ok (mRequest, slot)) :
    Accounted { s with
      posted := rest
      mHttpRequest := s.mHttpRequest.setTarget request
      mRequest := mRequest
      writes := s.writes ++ [⟨s.writesStarted, slot⟩]
      writesStarted := s.writesStarted + 1 }
      (log ++ [.added request hdl slot,
        .writeStarted s.writesStarted (mRequest.mRequests slot).1]) := by
  obtain ⟨⟨hpos, hbal⟩, ⟨hstart, htargets, hslots⟩⟩ := h
  obtain ⟨hpos', hslot, -, hentries⟩ := hpos.add ha
  have hmessage : (mRequest.mRequests slot).1 = s.mHttpRequest.setTarget request :=
    congrArg Prod.fst (RequestBuffer.stored_of_add ha)
  rw [hmessage]
  have hadded : accepted (log ++ [.added request hdl slot,
      .writeStarted s.writesStarted (s.mHttpRequest.setTarget request)]) =
      accepted log ++ [(request, hdl)] := accepted_append ..
  have hcalled : invoked (log ++ [.added request hdl slot,
      .writeStarted s.writesStarted (s.mHttpRequest.setTarget request)]) = invoked log :=
    (invoked_append ..).trans (List.append_nil _)
  have hwritten : handed (log ++ [.added request hdl slot,
      .writeStarted s.writesStarted (s.mHttpRequest.setTarget request)]) =
      handed log ++ [s.mHttpRequest.setTarget request] := handed_append ..
  have hlength : (accepted log ++ [(request, hdl)]).length = (accepted log).length + 1 :=
    List.length_append ..
  refine ⟨⟨?_, ?_⟩, ?_, ?_, ?_⟩
  · rw [hadded, hcalled, hlength]
    exact hpos'
  · rw [hadded, hcalled, hlength, hentries, List.map_append, ← List.append_assoc]
    exact congrArg (· ++ [(request, hdl)]) hbal
  · rw [hadded, hlength, ← hstart]
  · rw [hadded, hwritten, List.map_append, htargets, List.map_append]
    rfl
  · intro op ho
    rcases List.mem_append.mp ho with ho | ho
    · exact ⟨Nat.lt_succ_of_lt (hslots op ho).1, (hslots op ho).2⟩
    · cases List.mem_singleton.mp ho
      exact ⟨Nat.lt_succ_self _, by rw [hstart]; exact hslot⟩

theorem accounted_deliver {s : Client HandlerType} {log : List (Event HandlerType)}
    (h : Accounted s log) {response : HttpResponse}
    {mRequest : RequestBuffer HandlerType .standard} {req : HttpRequest} {hdl : HandlerType}
    (hg : s.mRequest.get = (mRequest, some (req, hdl))) :
    Accounted { s with
      mRequest := mRequest
      mHttpResult := response
      reads := s.reads - 1
      inCallback := true }
      (log ++ [.responseRead response,
        .invoked ⟨hdl, response.body, response.status, req.target⟩]) := by
  obtain ⟨⟨hpos, hbal⟩, ⟨hstart, htargets, hslots⟩⟩ := h
  have hne := RequestBuffer.nonempty_of_get hg
  obtain ⟨b', v, hget, hpos', _, _, hentries⟩ := hpos.get hne
  rw [hget] at hg
  cases hg
  have hadded : accepted (log ++ [.responseRead response,
      .invoked ⟨hdl, response.body, response.status, req.target⟩]) = accepted log :=
    (accepted_append ..).trans (List.append_nil _)
  have hcalled : invoked (log ++ [.responseRead response,
      .invoked ⟨hdl, response.body, response.status, req.target⟩]) =
      invoked log ++ [⟨hdl, response.body, response.status, req.target⟩] := invoked_append ..
  have hwritten : handed (log ++ [.responseRead response,
      .invoked ⟨hdl, response.body, response.status, req.target⟩]) = handed log :=
    (handed_append ..).trans (List.append_nil _)
  refine ⟨⟨?_, ?_⟩, ?_, ?_, ?_⟩
  · rw [hadded, hcalled, List.length_append]
    exact hpos'
  · rw [hadded, hcalled, List.length_append, List.map_append, List.append_assoc]
    rw [hentries] at hbal
    exact hbal
  · rw [hadded]
    exact hstart
  · rw [hadded, hwritten]
    exact htargets
  · exact hslots

theorem accounted_step {s s' : Client HandlerType} {log es : List (Event HandlerType)}
    {a : Action HandlerType} (h : Accounted s log) (hs : step s a = some (s', es)) :
    Accounted s' (log ++ es) := by
  cases move_of_step hs with
  | add request hdl rest mRequest slot hc hp ha => exact accounted_add h ha
  | deliver response mRequest req hdl hc hr hg => exact accounted_deliver h hg
  | writeDone op =>
    exact accounted_quiet h rfl rfl (List.erase_subset) rfl rfl rfl
  | writeFailed op =>
    exact accounted_quiet h rfl rfl (List.erase_subset) rfl rfl rfl
  | _ => exact accounted_quiet h rfl rfl (List.Subset.refl _) rfl rfl rfl

theorem accounted_of_run [Inhabited HandlerType] {mHost : Str} {as : List (Action HandlerType)}
    {s : Client HandlerType} {log : List (Event HandlerType)}
    (h : Run step (initial mHost) as s log) : Accounted s log :=
  h.invariant Accounted (initial_accounted mHost) fun _ _ _ _ _ => accounted_step

end Client
end RestClient
