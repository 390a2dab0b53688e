import RestClient.Backlog

/-!
# Outstanding writes

The strand orders the starts of the writes, and nothing waits for their ends. A
second `async_write` starts on the stream while one is outstanding as soon as
two requests follow each other closely. A slot is released by the read of a
response, so an early response and a full lap of the ring let `add` overwrite a
message whose write has not completed.
-/

namespace RestClient.Client
open Machine
variable {HandlerType : Type}

/-! ### One write at a time -/

/- When `ExecRequest` adds, every earlier write has completed. -/
def WritesCompleted (s : Client HandlerType) : Action HandlerType → Prop
  | .execRequest => ¬ s.mRequest.full → s.writes = []
  | _ => True

/-- At most one write is outstanding in every state of a run if and only if no
request is added while one is. -/
theorem one_write_iff_completed [Inhabited HandlerType] (mHost : Str)
    (as : List (Action HandlerType)) :
    (Always step (initial mHost : Client HandlerType) as fun s _ => s.writes.length ≤ 1) ↔
      EachStep step (initial mHost : Client HandlerType) as fun s _ a => WritesCompleted s a := by
  refine always_iff_eachStep Accounted _ _
    (always_of_run (fun _ _ _ => accounted_of_run) as) (Nat.zero_le 1) ?_ ?_
  · intro s log a s' es _ _ h hok hs
    cases move_of_step hs with
    | add request hdl rest mRequest slot hc hp ha =>
      rw [hok (RequestBuffer.not_full_of_add ha)]
      exact Nat.le_refl 1
    | writeDone op hc ho => exact Nat.le_trans List.length_erase_le h
    | writeFailed op ec hc ho he => exact Nat.le_trans List.length_erase_le h
    | _ => exact h
  · intro s log a s' es _ _ _ hs h'
    cases move_of_step hs with
    | refuse request hdl rest hc hp hf =>
      intro hroom
      exact absurd hf hroom
    | add request hdl rest mRequest slot hc hp ha =>
      intro _
      rw [List.length_append, List.length_singleton] at h'
      exact List.length_eq_zero_iff.mp (by omega)
    | _ => trivial

/-- Two requests posted together. -/
theorem two_writes_outstanding :
    ∃ (s : Client ℕ) (log : List (Event ℕ)),
      Run step (initial "h".toList)
        (startUp ++ [.asyncRequest "/ping".toList 1, .asyncRequest "/time".toList 2,
          .execRequest, .execRequest]) s log ∧
      s.writes.map WriteOp.serial = [0, 1] ∧ ¬ s.writes.length ≤ 1 := by
  obtain ⟨s, log, hr, hw⟩ := run_of_observed step (initial "h".toList : Client ℕ)
    (startUp ++ [.asyncRequest "/ping".toList 1, .asyncRequest "/time".toList 2,
      .execRequest, .execRequest])
    (fun r => r.1.writes.map WriteOp.serial)
    (show _ = some [0, 1] by decide +kernel)
  refine ⟨s, log, hr, hw, ?_⟩
  have htwo := congrArg List.length hw
  rw [List.length_map] at htwo
  rw [htwo]
  decide

/-! ### The message of an outstanding write -/

/- The step does not add into the slot of an outstanding write. -/
def KeepsWritten (s : Client HandlerType) (a : Action HandlerType) : Prop :=
  ∀ s' es request hdl slot, step s a = some (s', es) → .added request hdl slot ∈ es →
    ∀ op ∈ s.writes, op.slot ≠ slot

/- When `ExecRequest` adds a request, the one added `mSize` before it is written. -/
def LapCompleted (s : Client HandlerType) (log : List (Event HandlerType)) :
    Action HandlerType → Prop
  | .execRequest => ¬ s.mRequest.full → ∀ op ∈ s.writes,
      op.serial + RingSize.standard.mSize.toNat ≠ (accepted log).length
  | _ => True

/- Outstanding writes are less than a lap old and their messages are as handed over. -/
def WithinLap (s : Client HandlerType) (log : List (Event HandlerType)) : Prop :=
  ∀ op ∈ s.writes, (accepted log).length ≤ op.serial + RingSize.standard.mSize.toNat ∧
    (handed log)[op.serial]? = some (s.mRequest.mRequests op.slot).1

theorem withinLap_quiet {s s' : Client HandlerType} {log es : List (Event HandlerType)}
    (h : WithinLap s log) (hm : s'.mRequest.mRequests = s.mRequest.mRequests)
    (hw : s'.writes ⊆ s.writes) (ha : accepted es = []) (hh : handed es = []) :
    WithinLap s' (log ++ es) := by
  intro op ho
  rw [accepted_append, handed_append, ha, hh, List.append_nil, List.append_nil, hm]
  exact h op (hw ho)

theorem withinLap_add {s : Client HandlerType} {log : List (Event HandlerType)}
    (hacc : Accounted s log) (h : WithinLap s log) {request : Str} {hdl : HandlerType}
    {rest : List (Str × HandlerType)} {mRequest : RequestBuffer HandlerType .standard}
    {slot : Fin RingSize.standard.mSize.toNat}
    (hlap : ∀ op ∈ s.writes, op.serial + RingSize.standard.mSize.toNat ≠ (accepted log).length)
    (ha : s.mRequest.add (s.mHttpRequest.setTarget request) hdl = .ok (mRequest, slot)) :
    WithinLap { s with
      posted := rest
      mHttpRequest := s.mHttpRequest.setTarget request
      mRequest := mRequest
      writes := s.writes ++ [⟨s.writesStarted, slot⟩]
      writesStarted := s.writesStarted + 1 }
      (log ++ [.added request hdl slot,
        .writeStarted s.writesStarted (mRequest.mRequests slot).1]) := by
  obtain ⟨_, hslot, hstored, _⟩ := hacc.ring.positions.add ha
  have hstarted := hacc.writes.started
  have hlength := hacc.handed_length
  have hone : accepted [Event.added request hdl slot,
      .writeStarted s.writesStarted (mRequest.mRequests slot).1] = [(request, hdl)] := rfl
  have hmessage : handed [Event.added request hdl slot,
      .writeStarted s.writesStarted (mRequest.mRequests slot).1] =
      [(mRequest.mRequests slot).1] := rfl
  intro op ho
  rw [accepted_append, handed_append, hone, hmessage, List.length_append, List.length_singleton]
  rcases List.mem_append.mp ho with ho | ho
  · obtain ⟨hle, hintact⟩ := h op ho
    obtain ⟨hserial, hopslot⟩ := hacc.writes.slots op ho
    have hne := hlap op ho
    have hbelow : op.serial < (accepted log).length := by omega
    have hwithin : (accepted log).length < op.serial + RingSize.standard.mSize.toNat := by omega
    have hother : op.slot ≠ slot := by
      rw [hopslot, hslot]
      exact RingWindow.slotOf_ne hbelow hwithin
    refine ⟨hwithin, ?_⟩
    rw [List.getElem?_append_left (by omega), hintact, hstored, Function.update_of_ne hother]
  · cases List.mem_singleton.mp ho
    have hpos := RingSize.standard.mSize_pos
    dsimp only
    refine ⟨by omega, ?_⟩
    rw [List.getElem?_append_right (by omega), hlength, hstarted, Nat.sub_self]
    rfl

theorem withinLap_step {s s' : Client HandlerType} {log es : List (Event HandlerType)}
    {a : Action HandlerType} (hacc : Accounted s log) (h : WithinLap s log)
    (hok : LapCompleted s log a) (hs : step s a = some (s', es)) : WithinLap s' (log ++ es) := by
  cases move_of_step hs with
  | add request hdl rest mRequest slot hc hp ha =>
    exact withinLap_add hacc h (hok (RequestBuffer.not_full_of_add ha)) ha
  | deliver response mRequest req hdl hc hr hg =>
    exact withinLap_quiet h (RequestBuffer.get_mRequests hg) (List.Subset.refl _) rfl rfl
  | writeDone op => exact withinLap_quiet h rfl List.erase_subset rfl rfl
  | writeFailed op => exact withinLap_quiet h rfl List.erase_subset rfl rfl
  | _ => exact withinLap_quiet h rfl (List.Subset.refl _) rfl rfl

theorem keepsWritten_of_withinLap {s : Client HandlerType} {log : List (Event HandlerType)}
    {a : Action HandlerType} (hacc : Accounted s log) (h : WithinLap s log)
    (hok : LapCompleted s log a) : KeepsWritten s a := by
  intro s' es request hdl slot hs hm op ho
  cases move_of_step hs with
  | add request' hdl' rest mRequest slot' hc hp ha =>
    obtain ⟨_, hslot, _, _⟩ := hacc.ring.positions.add ha
    obtain ⟨hserial, hopslot⟩ := hacc.writes.slots op ho
    have hne := hok (RequestBuffer.not_full_of_add ha) op ho
    have hle := (h op ho).1
    have hstarted := hacc.writes.started
    have hsame : slot = slot' := by
      rcases List.mem_cons.mp hm with hm | hm
      · cases hm
        rfl
      · cases List.mem_singleton.mp hm
    rw [hsame, hopslot, hslot]
    exact RingWindow.slotOf_ne (by omega) (by omega)
  | _ => simp at hm

theorem lapCompleted_of_keepsWritten {s s' : Client HandlerType} {log es : List (Event HandlerType)}
    {a : Action HandlerType} (hacc : Accounted s log) (hs : step s a = some (s', es))
    (h : KeepsWritten s a) : LapCompleted s log a := by
  cases move_of_step hs with
  | refuse request hdl rest hc hp hf =>
    intro hroom
    exact absurd hf hroom
  | add request hdl rest mRequest slot hc hp ha =>
    intro _ op ho hlap
    obtain ⟨_, hslot, _, _⟩ := hacc.ring.positions.add ha
    have hopslot := (hacc.writes.slots op ho).2
    have hother := h _ _ request hdl slot hs (List.mem_cons_self ..) op ho
    rw [hopslot, hslot, ← hlap, RingWindow.slotOf_add_self] at hother
    exact hother rfl
  | _ => trivial

theorem not_keepsWritten {s : Client HandlerType} {log : List (Event HandlerType)}
    (hacc : Accounted s log) (hc : s.canHandle) {request : Str} {hdl : HandlerType}
    {rest : List (Str × HandlerType)} (hp : s.posted = (request, hdl) :: rest)
    (hf : ¬ s.mRequest.full) {op : WriteOp} (ho : op ∈ s.writes)
    (hlap : op.serial + RingSize.standard.mSize.toNat = (accepted log).length) :
    ¬ KeepsWritten s .execRequest := by
  intro h
  obtain ⟨mRequest, slot, ha, hadd⟩ := step_add hc hp hf
  exact lapCompleted_of_keepsWritten hacc hadd h hf op ho hlap

theorem withinLap_of_eachStep [Inhabited HandlerType] {mHost : Str}
    {as : List (Action HandlerType)}
    (h : EachStep step (initial mHost : Client HandlerType) as LapCompleted) :
    Always step (initial mHost : Client HandlerType) as WithinLap := by
  refine always_of_eachStep Accounted WithinLap LapCompleted
    (always_of_run (fun _ _ _ => accounted_of_run) as) ?_ ?_ h
  · intro op ho
    cases ho
  · intro s log a s' es hacc _ hlap hok hs
    exact withinLap_step hacc hlap hok hs

/-- No step of a run adds into the slot of a request whose `OnWrite` has not run if
and only if each request is added after the `OnWrite` of the request one lap before. -/
theorem written_kept_iff_lap_completed [Inhabited HandlerType] (mHost : Str)
    (as : List (Action HandlerType)) :
    (EachStep step (initial mHost : Client HandlerType) as fun s _ a => KeepsWritten s a) ↔
      EachStep step (initial mHost : Client HandlerType) as LapCompleted := by
  constructor
  · intro h pre a s log hp hr hs
    obtain ⟨⟨s', es⟩, hstep⟩ := Option.isSome_iff_exists.mp hs
    exact lapCompleted_of_keepsWritten (accounted_of_run hr) hstep (h pre a s log hp hr hs)
  · intro h pre a s log hp hr hs
    have hlap := withinLap_of_eachStep h
    have hprev : pre <+: as := (List.prefix_append pre [a]).trans hp
    exact keepsWritten_of_withinLap (accounted_of_run hr) (hlap pre s log hprev hr)
      (h pre a s log hp hr hs)

/-- The message of an outstanding write is then the one handed to `async_write`. -/
theorem message_intact [Inhabited HandlerType] (mHost : Str) (as : List (Action HandlerType))
    (h : EachStep step (initial mHost : Client HandlerType) as LapCompleted) :
    Always step (initial mHost : Client HandlerType) as fun s log =>
      ∀ op ∈ s.writes, (handed log)[op.serial]? = some (s.mRequest.mRequests op.slot).1 := by
  intro pre s log hp hr op ho
  exact (withinLap_of_eachStep h pre s log hp hr op ho).2

/-- The ring is full, no `OnWrite` has run, the response to request 0 arrives and one
more request is added: its slot is that of request 0, which is still being written. -/
theorem message_overwritten :
    ∃ (s : Client ℕ) (log : List (Event ℕ)),
      Run step (initial "h".toList)
        (flood "/ping".toList 1 4096 ++
          [.onRead 0 ⟨200, []⟩, .callbackReturn, .asyncRequest "/time".toList 2]) s log ∧
      (∃ op ∈ s.writes, op.serial = 0) ∧ ¬ KeepsWritten s .execRequest := by
  obtain ⟨s, log, hr, hs⟩ := flooded_flood "h".toList "/ping".toList 1 (Nat.le_refl 4096)
  have hacc := accounted_of_run hr
  obtain ⟨op, ho, hserial⟩ : ∃ op ∈ s.writes, op.serial = 0 := by
    have hmem : 0 ∈ s.writes.map WriteOp.serial := by
      rw [hs.writing]
      exact List.mem_range.mpr (by decide)
    exact List.mem_map.mp hmem
  have hne : s.mRequest.mReadPos < s.mRequest.mWritePos := by
    rw [hacc.ring.positions.nonempty_iff (by rw [hs.added]; decide), hs.unanswered, hs.added]
    decide
  obtain ⟨mRequest, req, hdl, hget, hread⟩ :=
    step_deliver ⟨200, []⟩ hs.handles (by rw [hs.reading]; decide) hne
  have hrun := ((hr.snoc hread).snoc (step_callbackReturn hs.handles.1 rfl)).snoc
    (step_post "/time".toList 2 hs.ready)
  simp only [List.append_assoc, List.cons_append, List.nil_append, hs.empty] at hrun
  refine ⟨_, _, hrun, ⟨op, ho, hserial⟩, ?_⟩
  have hacc' := accounted_of_run hrun
  have hlap : op.serial + RingSize.standard.mSize.toNat =
      (accepted (log ++ [.responseRead ⟨200, []⟩, .invoked ⟨hdl, [], 200, req.target⟩,
        .readStarted, .requested "/time".toList 2 .requestSent])).length := by
    rw [accepted_append, List.length_append, hs.added, hserial, RingSize.standard_mSize]
    rfl
  refine not_keepsWritten hacc' ⟨hs.handles.1, hs.handles.2.1, rfl⟩ rfl ?_ ho hlap
  rw [hacc'.ring.positions.full_iff, ← hlap, hserial, invoked_append, hs.unanswered]
  simp [invoked]

end RestClient.Client
