import RestClient.SessionAccounts

/-!
# Requests waiting for their responses

`AsyncRequest` returns `RequestSent` before the ring is touched. A request that
meets a full ring is popped from the strand, its exception leaves `mIoc.run()`
and nothing later is processed. No request is lost as long as that does not
happen.
-/

namespace RestClient.Client
open Machine
variable {HandlerType : Type}

/- Every request for which `RequestSent` was returned has been added and handed
to `async_write`, or is still posted, in that order; no request has ended the loop. -/
structure NoneLost (s : Client HandlerType) (log : List (Event HandlerType)) : Prop where
  kept : sent log = accepted log ++ s.posted
  written : (handed log).map HttpRequest.target = (accepted log).map Prod.fst
  continues : ∀ what, s.loop ≠ .threw (.bufferFull what)

/- `ExecRequest` does not run on a full ring. -/
def RingHasRoom (s : Client HandlerType) : Action HandlerType → Prop
  | .execRequest => ¬ s.mRequest.full
  | _ => True

theorem noneLost_quiet {s s' : Client HandlerType} {log es : List (Event HandlerType)}
    (h : NoneLost s log) (hacc : Accounted s' (log ++ es)) (hp : s'.posted = s.posted)
    (hs : sent es = []) (ha : accepted es = [])
    (hl : ∀ what, s.loop ≠ .threw (.bufferFull what) → s'.loop ≠ .threw (.bufferFull what)) :
    NoneLost s' (log ++ es) := by
  refine ⟨?_, hacc.writes.targets, ?_⟩
  · rw [sent_append, accepted_append, hs, ha, List.append_nil, List.append_nil, hp]
    exact h.kept
  · intro what
    exact hl what (h.continues what)

theorem noneLost_step {s s' : Client HandlerType} {log es : List (Event HandlerType)}
    {a : Action HandlerType} (hacc : Accounted s' (log ++ es)) (h : NoneLost s log)
    (hok : RingHasRoom s a) (hs : step s a = some (s', es)) : NoneLost s' (log ++ es) := by
  cases move_of_step hs with
  | post request hdl hn =>
    have hsent : sent [Event.requested request hdl .requestSent] = [(request, hdl)] := rfl
    have hnone : accepted [Event.requested request hdl .requestSent] = [] := rfl
    refine ⟨?_, hacc.writes.targets, h.continues⟩
    rw [sent_append, accepted_append, hsent, hnone, List.append_nil, h.kept, List.append_assoc]
  | refuse request hdl rest hc hp hf => exact absurd hf hok
  | add request hdl rest mRequest slot hc hp ha =>
    have hkept := h.kept
    rw [hp] at hkept
    refine ⟨?_, hacc.writes.targets, h.continues⟩
    simpa [sent, accepted] using hkept
  | iocRun => exact noneLost_quiet h hacc rfl rfl rfl fun _ _ hl => by cases hl
  | callbackThrow => exact noneLost_quiet h hacc rfl rfl rfl fun _ _ hl => by cases hl
  | iocReturn => exact noneLost_quiet h hacc rfl rfl rfl fun _ _ hl => by cases hl
  | _ => exact noneLost_quiet h hacc rfl rfl rfl fun _ hl => hl

/-- No request is lost in a run if and only if `ExecRequest` never runs on a full
ring. -/
theorem none_lost_iff_ring_has_room [Inhabited HandlerType] (mHost : Str)
    (as : List (Action HandlerType)) :
    Always step (initial mHost : Client HandlerType) as NoneLost ↔
      EachStep step (initial mHost : Client HandlerType) as fun s _ a => RingHasRoom s a := by
  refine always_iff_eachStep Accounted NoneLost _
    (always_of_run (fun _ _ _ => accounted_of_run) as) ?_ ?_ ?_
  · exact ⟨rfl, rfl, fun what hl => by cases hl⟩
  · intro s log a s' es _ hacc h hok hs
    exact noneLost_step hacc h hok hs
  · intro s log a s' es _ _ _ hs h'
    cases move_of_step hs with
    | refuse request hdl rest hc hp hf => exact absurd rfl (h'.continues _)
    | add request hdl rest mRequest slot hc hp ha => exact RequestBuffer.not_full_of_add ha
    | _ => trivial

/-! ### Unanswered requests fill the ring -/

/- `k` requests, each executed before the next is posted. -/
def flood (request : Str) (hdl : HandlerType) : ℕ → List (Action HandlerType)
  | 0 => startUp
  | k + 1 => flood request hdl k ++ [.asyncRequest request hdl, .execRequest]

/- Neither `ErrorHandle` nor `Stop` was called. -/
def Undisturbed (log : List (Event HandlerType)) : Prop :=
  (∀ ctx ec, .errorHandled ctx ec ∉ log) ∧ .stopCalled ∉ log

theorem Undisturbed.append {log es : List (Event HandlerType)} (h : Undisturbed log)
    (he : ∀ ctx ec, .errorHandled ctx ec ∉ es) (hs : .stopCalled ∉ es) :
    Undisturbed (log ++ es) := by
  refine ⟨?_, ?_⟩
  · intro ctx ec hm
    rcases List.mem_append.mp hm with hm | hm
    · exact h.1 ctx ec hm
    · exact he ctx ec hm
  · intro hm
    rcases List.mem_append.mp hm with hm | hm
    · exact h.2 hm
    · exact hs hm

/- `k` requests are unanswered and none of the writes has completed. -/
structure Flooded (s : Client HandlerType) (log : List (Event HandlerType)) (k : ℕ) : Prop where
  handles : s.canHandle
  ready : s.mSessionReady = true
  empty : s.posted = []
  reading : s.reads = 1
  sending : (sent log).length = k
  added : (accepted log).length = k
  unanswered : invoked log = []
  writing : s.writes.map WriteOp.serial = List.range k
  undisturbed : Undisturbed log

theorem Flooded.full_iff {s : Client HandlerType} {log : List (Event HandlerType)} {k : ℕ}
    (h : Flooded s log k) (hacc : Accounted s log) : s.mRequest.full ↔ k = 4096 := by
  have hpos := hacc.ring.positions
  rw [h.unanswered, h.added] at hpos
  rw [hpos.full_iff, RingSize.standard_mSize]
  exact ⟨fun hk => by simpa using hk, fun hk => by simpa using hk⟩

theorem flooded_startUp [Inhabited HandlerType] (mHost : Str) :
    ∃ (s : Client HandlerType) (log : List (Event HandlerType)),
      Run step (initial mHost) startUp s log ∧ Flooded s log 0 := by
  have hquiet : Undisturbed [Event.done .hostName, .done .resolve, .done .connect,
      .done .handshake, (.readStarted : Event HandlerType)] := ⟨by simp, by simp⟩
  exact ⟨_, _, run_startUp mHost, ⟨rfl, rfl, rfl⟩, rfl, rfl, rfl, rfl, rfl, rfl, rfl, hquiet⟩

theorem flooded_succ {s : Client HandlerType} {log : List (Event HandlerType)} {k : ℕ}
    (h : Flooded s log k) (hacc : Accounted s log) (hk : k < 4096) (request : Str)
    (hdl : HandlerType) :
    ∃ s' es, Run step s [.asyncRequest request hdl, .execRequest] s' es ∧
      Flooded s' (log ++ es) (k + 1) := by
  have hroom : ¬ s.mRequest.full := fun hf => Nat.ne_of_lt hk ((h.full_iff hacc).mp hf)
  have hpost := step_post request hdl h.ready
  rw [h.empty, List.nil_append] at hpost
  have hhandles : ({ s with posted := [(request, hdl)] } : Client HandlerType).canHandle :=
    h.handles
  obtain ⟨mRequest, slot, ha, hadd⟩ := step_add hhandles rfl hroom
  have hstarted : s.writesStarted = k := hacc.writes.started.trans h.added
  refine ⟨_, _, (Run.single hpost).snoc hadd, h.handles, h.ready, rfl, h.reading, ?_, ?_, ?_, ?_,
    h.undisturbed.append (by simp) (by simp)⟩
  · rw [sent_append, List.length_append, h.sending]
    rfl
  · rw [accepted_append, List.length_append, h.added]
    rfl
  · rw [invoked_append, h.unanswered]
    rfl
  · rw [List.map_append, h.writing, List.range_succ, List.map_singleton, hstarted]

theorem flooded_flood [Inhabited HandlerType] (mHost request : Str) (hdl : HandlerType) {k : ℕ}
    (hk : k ≤ 4096) :
    ∃ s log, Run step (initial mHost) (flood request hdl k) s log ∧ Flooded s log k := by
  induction k with
  | zero => exact flooded_startUp mHost
  | succ k ih =>
    obtain ⟨s, log, hr, hs⟩ := ih (Nat.le_of_succ_le hk)
    obtain ⟨s', es, hr', hs'⟩ := flooded_succ hs (accounted_of_run hr) hk request hdl
    exact ⟨s', log ++ es, hr.append hr', hs'⟩

/-- 4097 requests before the first response: `RequestSent` is returned for the last
one, it is neither added nor posted any more, and the loop has been left. No error
was handled and nobody stopped the client. -/
theorem request_lost :
    ∃ (s : Client ℕ) (log : List (Event ℕ)),
      Run step (initial "h".toList)
        (flood "/ping".toList 1 4096 ++ [.asyncRequest "/time".toList 2, .execRequest]) s log ∧
      Undisturbed log ∧ (sent log).length = 4097 ∧ (accepted log).length = 4096 ∧
      s.posted = [] ∧ (∃ what, s.loop = .threw (.bufferFull what)) ∧ ¬ NoneLost s log := by
  obtain ⟨s, log, hr, hs⟩ := flooded_flood "h".toList "/ping".toList 1 (Nat.le_refl 4096)
  have hfull := (hs.full_iff (accounted_of_run hr)).mpr rfl
  have hpost := step_post "/time".toList 2 hs.ready
  rw [hs.empty, List.nil_append] at hpost
  have hhandles : ({ s with posted := [("/time".toList, 2)] } : Client ℕ).canHandle := hs.handles
  have hrun := hr.append ((Run.single hpost).snoc (step_refuse hhandles rfl hfull))
  refine ⟨_, _, hrun, hs.undisturbed.append (by simp) (by simp), ?_, ?_, rfl, ⟨_, rfl⟩, ?_⟩
  · rw [sent_append, List.length_append, hs.sending]
    rfl
  · rw [accepted_append, List.length_append, hs.added]
    rfl
  · intro hnone
    exact hnone.continues _ rfl

end RestClient.Client
