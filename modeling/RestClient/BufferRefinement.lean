import RestClient.Lib.BoundedQueue
import RestClient.RequestBuffer

/-!
# The ring refines a bounded queue

Sequences of `add` and `get` calls on one `RequestBuffer`, each call finished
before the next begins, against `BoundedQueue` of capacity `mSize`.
-/

namespace RestClient.RequestBuffer
open Machine
variable {Callback : Type} {n : RingSize}

inductive Call (Callback : Type) where
  | add (httpRequest : HttpRequest) (hdl : Callback)
  | get

/- What the caller sees. A reference is observed through the entry its slot
holds when `add` returns. -/
inductive Answer (Callback : Type) (n : RingSize) where
  | slot (i : Fin n.mSize.toNat) (held : RequestType Callback)
  | thrown (what : Str)
  | entry (v : RequestType Callback)
  | nullopt

def call (b : RequestBuffer Callback n) :
    Call Callback → RequestBuffer Callback n × Answer Callback n
  | .add httpRequest hdl =>
    match b.add httpRequest hdl with
    | .error what => (b, .thrown what)
    | .ok (b', i) => (b', .slot i (b'.mRequests i))
  | .get =>
    match b.get with
    | (b', some v) => (b', .entry v)
    | (b', none) => (b', .nullopt)

def callStep : Step (RequestBuffer Callback n) (Call Callback) (Answer Callback n) :=
  fun b c => some ((b.call c).1, [(b.call c).2])

def Call.op : Call Callback → BoundedQueue.Op (RequestType Callback)
  | .add httpRequest hdl => .enqueue (httpRequest, hdl)
  | .get => .dequeue

def Answer.outcome : Answer Callback n → BoundedQueue.Outcome (RequestType Callback)
  | .slot _ held => .accepted held
  | .thrown _ => .refused
  | .entry v => .got v
  | .nullopt => .empty

def Answer.isSlot : Answer Callback n → Bool
  | .slot _ _ => true
  | _ => false

/-- The successful `add` calls of a run. -/
def successfulAdds (log : List (Answer Callback n)) : ℕ := log.countP Answer.isSlot

/-- The entries between the two positions, oldest first. -/
def live (b : RequestBuffer Callback n) : List (RequestType Callback) :=
  b.entries b.mReadPos.toNat b.mWritePos.toNat

/- The simulation relation: the queue holds the entries of the ring's window. -/
def Represents (b : RequestBuffer Callback n) (log : List (Answer Callback n))
    (q : BoundedQueue (RequestType Callback) n.mSize.toNat) : Prop :=
  ∃ r, b.Positions r (successfulAdds log) ∧ q.items = b.entries r (successfulAdds log)

theorem successfulAdds_append (log : List (Answer Callback n)) (a : Answer Callback n) :
    successfulAdds (log ++ [a]) = successfulAdds log + if a.isSlot then 1 else 0 := by
  simp [successfulAdds, List.countP_append, List.countP_singleton]

theorem entries_length (b : RequestBuffer Callback n) (r w : ℕ) :
    (b.entries r w).length = w - r := RingWindow.window_length b.mRequests r w

/- A full ring: both sides refuse and stay as they are. -/
theorem represents_add_full {b : RequestBuffer Callback n} {log : List (Answer Callback n)}
    {q : BoundedQueue (RequestType Callback) n.mSize.toNat} (httpRequest : HttpRequest)
    (hdl : Callback) (h : Represents b log q) (hf : b.full) :
    let out := b.call (.add httpRequest hdl)
    ((q.apply (.enqueue (httpRequest, hdl))).2 = out.2.outcome) ∧
      Represents out.1 (log ++ [out.2]) (q.apply (.enqueue (httpRequest, hdl))).1 := by
  obtain ⟨r, hpos, hq⟩ := h
  have hlen : q.items.length = n.mSize.toNat := by
    have hw := hpos.full_iff.mp hf
    rw [hq, entries_length]
    omega
  intro out
  have hout : out = (b, .thrown (writeBufferFull b.mWritePos b.mReadPos)) := by
    simp only [out, call, add_full httpRequest hdl hf]
  rw [BoundedQueue.enqueue_full q _ hlen, hout]
  refine ⟨rfl, r, ?_⟩
  rw [successfulAdds_append]
  exact ⟨hpos, hq⟩

/- Room: both sides append the same pair. -/
theorem represents_add_room {b : RequestBuffer Callback n} {log : List (Answer Callback n)}
    {q : BoundedQueue (RequestType Callback) n.mSize.toNat} (httpRequest : HttpRequest)
    (hdl : Callback) (h : Represents b log q) (hf : ¬ b.full) :
    let out := b.call (.add httpRequest hdl)
    ((q.apply (.enqueue (httpRequest, hdl))).2 = out.2.outcome) ∧
      Represents out.1 (log ++ [out.2]) (q.apply (.enqueue (httpRequest, hdl))).1 := by
  obtain ⟨r, hpos, hq⟩ := h
  have hlen : q.items.length < n.mSize.toNat := by
    have hne := mt hpos.full_iff.mpr hf
    have hroom := hpos.room
    have hle := hpos.le
    rw [hq, entries_length]
    omega
  obtain ⟨b', i, hadd⟩ : ∃ b' i, b.add httpRequest hdl = .ok (b', i) :=
    ⟨_, _, add_room httpRequest hdl hf⟩
  obtain ⟨hpos', -, hslots, hentries⟩ := hpos.add hadd
  obtain ⟨hitems, hout⟩ := BoundedQueue.enqueue_room q (httpRequest, hdl) hlen
  intro out
  have hcall : out = (b', .slot i (httpRequest, hdl)) := by
    simp only [out, call, hadd, hslots, Function.update_self]
  rw [hout, hcall]
  refine ⟨rfl, r, ?_⟩
  rw [successfulAdds_append]
  exact ⟨hpos', by rw [hitems, hq]; exact hentries.symm⟩

theorem represents_get {b : RequestBuffer Callback n} {log : List (Answer Callback n)}
    {q : BoundedQueue (RequestType Callback) n.mSize.toNat} (h : Represents b log q)
    (hw : successfulAdds log < 2 ^ 64) :
    let out := b.call .get
    ((q.apply .dequeue).2 = out.2.outcome) ∧
      Represents out.1 (log ++ [out.2]) (q.apply .dequeue).1 := by
  obtain ⟨r, hpos, hq⟩ := h
  intro out
  by_cases hne : b.mReadPos < b.mWritePos
  · obtain ⟨b', v, hget, hpos', -, -, hentries⟩ := hpos.get hne
    obtain ⟨hitems, hout⟩ := BoundedQueue.dequeue_cons q v _ (hq.trans hentries)
    have hcall : out = (b', .entry v) := by
      simp only [out, call, hget]
    rw [hout, hcall]
    refine ⟨rfl, r + 1, ?_⟩
    rw [successfulAdds_append]
    exact ⟨hpos', hitems⟩
  · have hrw : r = successfulAdds log := by
      have hnot := mt (hpos.nonempty_iff hw).mpr hne
      have hle := hpos.le
      omega
    have hnil : q.items = [] := by
      rw [hq, hrw]
      exact RingWindow.window_self b.mRequests _
    have hcall : out = (b, .nullopt) := by
      simp only [out, call, get_empty hne]
    rw [BoundedQueue.dequeue_nil q hnil, hcall]
    refine ⟨rfl, r, ?_⟩
    rw [successfulAdds_append]
    exact ⟨hpos, hq⟩

/-- One call answers as the queue does and keeps the relation. -/
theorem represents_call {b : RequestBuffer Callback n} {log : List (Answer Callback n)}
    {q : BoundedQueue (RequestType Callback) n.mSize.toNat} (c : Call Callback)
    (h : Represents b log q) (hw : successfulAdds log < 2 ^ 64) :
    ((q.apply c.op).2 = (b.call c).2.outcome) ∧
      Represents (b.call c).1 (log ++ [(b.call c).2]) (q.apply c.op).1 := by
  cases c with
  | add httpRequest hdl =>
    by_cases hf : b.full
    · exact represents_add_full httpRequest hdl h hf
    · exact represents_add_room httpRequest hdl h hf
  | get => exact represents_get h hw

/- The two refusals leave the whole buffer as it was. -/
theorem call_refused (b : RequestBuffer Callback n) (c : Call Callback)
    (h : (b.call c).2.outcome = .refused ∨ (b.call c).2.outcome = .empty) :
    (b.call c).1 = b := by
  cases c with
  | add httpRequest hdl =>
    by_cases hf : b.full
    · simp only [call, add_full httpRequest hdl hf]
    · simp [call, add_room httpRequest hdl hf, Answer.outcome] at h
  | get =>
    simp only [call, RequestBuffer.get] at h ⊢
    split at h
    · rename_i he
      split at he
      · simp at he
      · simp [Answer.outcome] at h
    · rename_i he
      split at he
      · simp_all
      · simp at he

/-- For every `SIZE` and every sequence of calls with fewer than `2 ^ 64`
successful `add`s the ring answers every call as a queue of capacity `mSize`
does and holds that queue's items. -/
theorem buffer_refines_queue [Inhabited Callback] (n : RingSize) (calls : List (Call Callback))
    (b : RequestBuffer Callback n) (log : List (Answer Callback n))
    (h : Run callStep initial calls b log) (hw : successfulAdds log < 2 ^ 64) :
    ∃ q : BoundedQueue (RequestType Callback) n.mSize.toNat,
      Run BoundedQueue.step .nil (calls.map Call.op) q (log.map Answer.outcome) ∧
      q.items = b.live ∧
      ∀ c, (b.call c).2.outcome = .refused ∨ (b.call c).2.outcome = .empty → (b.call c).1 = b := by
  have hshorter : ∀ log es : List (Answer Callback n),
      successfulAdds (log ++ es) < 2 ^ 64 → successfulAdds log < 2 ^ 64 := by
    intro log es hlt
    rw [successfulAdds, List.countP_append] at hlt
    exact Nat.lt_of_le_of_lt (Nat.le_add_right _ _) hlt
  have hstart : Represents (initial : RequestBuffer Callback n) [] .nil :=
    ⟨0, positions_initial, rfl⟩
  have hsim : ∃ q : BoundedQueue (RequestType Callback) n.mSize.toNat,
      Run BoundedQueue.step .nil (calls.map Call.op) q (log.map Answer.outcome) ∧
        Represents b log q := by
    refine Run.simulate Call.op Answer.outcome (fun log => successfulAdds log < 2 ^ 64)
      Represents hshorter hstart ?_ h hw
    intro b log q c b' es hR hlt hs
    cases hs
    obtain ⟨hout, hR'⟩ := represents_call c hR (hshorter _ _ hlt)
    exact ⟨_, by simp [BoundedQueue.step, hout], hR'⟩
  obtain ⟨q, hq, r, hpos, hitems⟩ := hsim
  refine ⟨q, hq, ?_, call_refused b⟩
  rw [hitems, live, hpos.read, hpos.write, Nat.mod_eq_of_lt hw]

/- Two slots: the ring fills, refuses, wraps round and drains. -/
theorem buffer_refines_queue_two_slots :
    ∃ (b : RequestBuffer ℕ .smallest) (log : List (Answer ℕ .smallest))
      (q : BoundedQueue (RequestType ℕ) RingSize.smallest.mSize.toNat),
      log.map Answer.outcome = [.accepted (default, 1), .accepted (default, 2), .refused,
        .got (default, 1), .accepted (default, 4), .got (default, 2), .got (default, 4), .empty] ∧
      q.items = b.live := by
  obtain ⟨b, log, hr, hlog⟩ := run_of_observed callStep (initial : RequestBuffer ℕ .smallest)
    [.add default 1, .add default 2, .add default 3, .get, .add default 4, .get, .get, .get]
    (fun r => (r.2.map Answer.outcome, decide (successfulAdds r.2 < 2 ^ 64)))
    (show _ = some ([.accepted (default, 1), .accepted (default, 2), .refused,
      .got (default, 1), .accepted (default, 4), .got (default, 2), .got (default, 4), .empty],
      true) by decide +kernel)
  simp only [Prod.mk.injEq, decide_eq_true_eq] at hlog
  obtain ⟨q, -, hq, -⟩ := buffer_refines_queue _ _ b log hr hlog.2
  exact ⟨b, log, q, hlog.1, hq⟩

end RestClient.RequestBuffer
