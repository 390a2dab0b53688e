import RestClient.Lib.BoundedQueue
import RestClient.Delivery

/-!
# The session refines a bounded queue of requests

What a client sees of a session is a queue of capacity `mSize` of the requests
whose callback is still to come: `ExecRequest` appends one or is refused,
`OnRead` takes the oldest. All other steps show nothing.
-/

namespace RestClient.Client
open Machine
variable {HandlerType : Type}

/- What an event shows of the queue. -/
def shown : Event HandlerType → Option (BoundedQueue.Outcome (Str × HandlerType))
  | .added request hdl _ => some (.accepted (request, hdl))
  | .refused _ _ => some .refused
  | .invoked i => some (.got i.call)
  | _ => none

/- The queue holds the outstanding requests. -/
def Holds (s : Client HandlerType) (log : List (Event HandlerType))
    (q : BoundedQueue (Str × HandlerType) RingSize.standard.mSize.toNat) : Prop :=
  Accounted s log ∧ q.items = outstanding log

theorem Accounted.outstanding_length {s : Client HandlerType} {log : List (Event HandlerType)}
    (h : Accounted s log) :
    (outstanding log).length < RingSize.standard.mSize.toNat ↔ ¬ s.mRequest.full := by
  have hle := h.ring.positions.le
  have hroom := h.ring.positions.room
  rw [h.ring.positions.full_iff, outstanding, List.length_drop]
  omega

/- The outstanding requests lose those called back and gain those added. -/
theorem outstanding_append {s : Client HandlerType} {log es : List (Event HandlerType)}
    (h : Accounted s log) (hi : (invoked es).length ≤ (outstanding log).length) :
    outstanding (log ++ es) = (outstanding log).drop (invoked es).length ++ accepted es := by
  have hle := h.ring.positions.le
  have hlength : (outstanding log).length = (accepted log).length - (invoked log).length :=
    List.length_drop
  have hshort : (invoked log).length + (invoked es).length ≤ (accepted log).length := by omega
  unfold outstanding
  rw [accepted_append, invoked_append, List.length_append, List.drop_append_of_le_length hshort,
    List.drop_drop]

theorem holds_step {s s' : Client HandlerType} {log es : List (Event HandlerType)}
    {q : BoundedQueue (Str × HandlerType) RingSize.standard.mSize.toNat} {a : Action HandlerType}
    (h : Holds s log q) (hs : step s a = some (s', es)) :
    ∃ ops q', Run BoundedQueue.step q ops q' (es.filterMap shown) ∧ Holds s' (log ++ es) q' := by
  obtain ⟨hacc, hq⟩ := h
  have hacc' := accounted_step hacc hs
  cases move_of_step hs with
  | refuse request hdl rest hc hp hf =>
    have hfull : q.items.length = RingSize.standard.mSize.toNat := by
      have hnot := mt hacc.outstanding_length.mp (not_not.mpr hf)
      have hbound := q.bound
      rw [hq] at hbound ⊢
      omega
    refine ⟨_, q, BoundedQueue.run_enqueue_full q (request, hdl) hfull, hacc', ?_⟩
    rw [hq, outstanding_append hacc (Nat.zero_le _)]
    exact (List.append_nil _).symm
  | add request hdl rest mRequest slot hc hp ha =>
    have hroom : q.items.length < RingSize.standard.mSize.toNat := by
      rw [hq]
      exact hacc.outstanding_length.mpr (RequestBuffer.not_full_of_add ha)
    obtain ⟨q', hrun, hitems⟩ := BoundedQueue.run_enqueue_room q (request, hdl) hroom
    refine ⟨_, q', hrun, hacc', ?_⟩
    rw [hitems, hq, outstanding_append hacc (Nat.zero_le _)]
    rfl
  | deliver response mRequest req hdl hc hr hg =>
    have hne := RequestBuffer.nonempty_of_get hg
    have hread := delivered_of_read hacc hs
    rw [if_pos hne] at hread
    obtain ⟨request, hdl', rest, hout, hinvoked⟩ := hread
    cases hinvoked
    obtain ⟨q', hrun, hitems⟩ := BoundedQueue.run_dequeue q (_, _) rest (hq.trans hout)
    have hone : (invoked [.responseRead response,
        .invoked ⟨hdl, response.body, response.status, req.target⟩]).length ≤
        (outstanding log).length := by
      rw [hout]
      exact Nat.succ_le_succ (Nat.zero_le _)
    refine ⟨_, q', hrun, hacc', ?_⟩
    rw [hitems, outstanding_append hacc hone, hout]
    exact (List.append_nil _).symm
  | _ =>
    refine ⟨[], q, .nil, hacc', ?_⟩
    rw [hq, outstanding_append hacc (Nat.zero_le _)]
    exact (List.append_nil _).symm

/-- Every run of a client shows a run of the bounded queue, and the queue then holds
the requests whose callback is still to come. -/
theorem session_refines_queue [Inhabited HandlerType] {mHost : Str}
    {as : List (Action HandlerType)} {s : Client HandlerType} {log : List (Event HandlerType)}
    (h : Run step (initial mHost) as s log) :
    ∃ ops, ∃ q : BoundedQueue (Str × HandlerType) RingSize.standard.mSize.toNat,
      Run BoundedQueue.step .nil ops q (log.filterMap shown) ∧ q.items = outstanding log := by
  have hstart : Holds (initial mHost : Client HandlerType) [] .nil :=
    ⟨initial_accounted mHost, rfl⟩
  obtain ⟨ops, q, hrun, hholds⟩ :=
    h.simulate_shown shown Holds hstart fun _ _ _ _ _ _ => holds_step
  exact ⟨ops, q, hrun, hholds.2⟩

end RestClient.Client
