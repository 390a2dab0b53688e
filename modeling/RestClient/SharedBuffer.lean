import RestClient.Lib.Machine
import RestClient.RequestBuffer

/-!
# The request ring under concurrent calls (request_buffer.hpp:29-55)

One producer thread runs `add` calls and any number of consumer threads run
`get` calls on one buffer. A step is one atomic load, increment or
compare-exchange, or one whole-slot access; what a thread has read so far is
its program counter. All interleavings are runs of this machine.
-/

namespace RestClient.Shared
open Machine

/- Where an `add` call stands. `v` is the pair it stores. -/
inductive AddPc (Callback : Type) where
  | idle
  | called (v : RequestType Callback)
  | loaded (v : RequestType Callback) (currentWritePos : UInt64)
  | full (currentWritePos : UInt64)
  | room (v : RequestType Callback) (currentWritePos : UInt64)
  | assigned (v : RequestType Callback) (currentWritePos : UInt64)

/- Where a `get` call stands. -/
inductive GetPc where
  | idle
  | called
  | looping
  | loaded (localReadPos : UInt64)
  | nonempty (localReadPos : UInt64)
  | claimed (localReadPos : UInt64)
  deriving DecidableEq

structure State (ι Callback : Type) (n : RingSize) where
  buffer : RequestBuffer Callback n
  producer : AddPc Callback
  consumer : ι → GetPc

inductive Action (ι Callback : Type) where
  | callAdd (v : RequestType Callback)
  | producer
  | callGet (c : ι)
  | consumer (c : ι)

inductive Event (ι Callback : Type) where
  | refused (what : Str)
  | published (position : UInt64) (v : RequestType Callback)
  | claimed (c : ι) (position : UInt64)
  | exchangeFailed (c : ι)
  | empty (c : ι)
  | returned (c : ι) (position : UInt64) (v : RequestType Callback)
  deriving DecidableEq

variable {ι Callback : Type} {n : RingSize}

/- The next atomic operation of an `add` call. -/
def addStep (b : RequestBuffer Callback n) :
    AddPc Callback → Option (RequestBuffer Callback n × AddPc Callback × List (Event ι Callback))
  | .idle => none
  -- currentWritePos = mWritePos.load()
  | .called v => some (b, .loaded v b.mWritePos, [])
  -- loads mReadPos and tests for fullness
  | .loaded v w => some (b, if w - b.mReadPos ≥ n.mSize then .full w else .room v w, [])
  -- loads mReadPos again for the text it throws
  | .full w => some (b, .idle, [.refused (writeBufferFull w b.mReadPos)])
  | .room v w =>
    some ({ b with mRequests := Function.update b.mRequests (n.slot w) v }, .assigned v w, [])
  -- mWritePos++, then the call returns a reference to the slot
  | .assigned v _ =>
    some ({ b with mWritePos := b.mWritePos + 1 }, .idle, [.published b.mWritePos v])

/- The next atomic operation of a `get` call by thread `c`. -/
def getStep (b : RequestBuffer Callback n) (c : ι) :
    GetPc → Option (RequestBuffer Callback n × GetPc × List (Event ι Callback))
  | .idle => none
  -- the load before the loop, overwritten by the first load inside it
  | .called => some (b, .looping, [])
  | .looping => some (b, .loaded b.mReadPos, [])
  -- loads mWritePos and tests for emptiness
  | .loaded r => if r ≥ b.mWritePos then some (b, .idle, [.empty c]) else some (b, .nonempty r, [])
  -- compare_exchange_strong(localReadPos, localReadPos + 1)
  | .nonempty r =>
    if b.mReadPos = r then some ({ b with mReadPos := r + 1 }, .claimed r, [.claimed c r])
    else some (b, .looping, [.exchangeFailed c])
  | .claimed r => some (b, .idle, [.returned c r (b.mRequests (n.slot r))])

variable [DecidableEq ι]

def step : Step (State ι Callback n) (Action ι Callback) (Event ι Callback)
  | s, .callAdd v =>
    match s.producer with
    | .idle => some ({ s with producer := .called v }, [])
    | _ => none
  | s, .producer =>
    (addStep s.buffer s.producer).map fun r =>
      ({ s with buffer := r.1, producer := r.2.1 }, r.2.2)
  | s, .callGet c =>
    match s.consumer c with
    | .idle => some ({ s with consumer := Function.update s.consumer c .called }, [])
    | _ => none
  | s, .consumer c =>
    (getStep s.buffer c (s.consumer c)).map fun r =>
      ({ s with buffer := r.1, consumer := Function.update s.consumer c r.2.1 }, r.2.2)

def initial [Inhabited Callback] : State ι Callback n :=
  ⟨RequestBuffer.initial, .idle, fun _ => .idle⟩

/-! ### Inversion: one constructor for each branch of the two functions -/

inductive Move (s : State ι Callback n) :
    Action ι Callback → State ι Callback n → List (Event ι Callback) → Prop
  | callAdd (v) (hp : s.producer = .idle) :
      Move s (.callAdd v) { s with producer := .called v } []
  | loadWrite (v) (hp : s.producer = .called v) :
      Move s .producer { s with producer := .loaded v s.buffer.mWritePos } []
  | testFull (v w) (hp : s.producer = .loaded v w) (hf : w - s.buffer.mReadPos ≥ n.mSize) :
      Move s .producer { s with producer := .full w } []
  | testRoom (v w) (hp : s.producer = .loaded v w) (hf : ¬ w - s.buffer.mReadPos ≥ n.mSize) :
      Move s .producer { s with producer := .room v w } []
  | refuse (w) (hp : s.producer = .full w) :
      Move s .producer { s with producer := .idle }
        [.refused (writeBufferFull w s.buffer.mReadPos)]
  | assign (v w) (hp : s.producer = .room v w) :
      Move s .producer { s with
        buffer.mRequests := Function.update s.buffer.mRequests (n.slot w) v
        producer := .assigned v w } []
  | publish (v w) (hp : s.producer = .assigned v w) :
      Move s .producer { s with
        buffer.mWritePos := s.buffer.mWritePos + 1
        producer := .idle } [.published s.buffer.mWritePos v]
  | callGet (c) (hc : s.consumer c = .idle) :
      Move s (.callGet c) { s with consumer := Function.update s.consumer c .called } []
  | firstLoad (c) (hc : s.consumer c = .called) :
      Move s (.consumer c) { s with consumer := Function.update s.consumer c .looping } []
  | loadRead (c) (hc : s.consumer c = .looping) :
      Move s (.consumer c)
        { s with consumer := Function.update s.consumer c (.loaded s.buffer.mReadPos) } []
  | testEmpty (c r) (hc : s.consumer c = .loaded r) (he : r ≥ s.buffer.mWritePos) :
      Move s (.consumer c) { s with consumer := Function.update s.consumer c .idle } [.empty c]
  | testNonempty (c r) (hc : s.consumer c = .loaded r) (he : r < s.buffer.mWritePos) :
      Move s (.consumer c)
        { s with consumer := Function.update s.consumer c (.nonempty r) } []
  | claim (c r) (hc : s.consumer c = .nonempty r) (he : s.buffer.mReadPos = r) :
      Move s (.consumer c) { s with
        buffer.mReadPos := r + 1
        consumer := Function.update s.consumer c (.claimed r) } [.claimed c r]
  | exchangeFail (c r) (hc : s.consumer c = .nonempty r) (he : s.buffer.mReadPos ≠ r) :
      Move s (.consumer c)
        { s with consumer := Function.update s.consumer c .looping } [.exchangeFailed c]
  | copy (c r) (hc : s.consumer c = .claimed r) :
      Move s (.consumer c) { s with consumer := Function.update s.consumer c .idle }
        [.returned c r (s.buffer.mRequests (n.slot r))]

theorem move_of_add {s s' : State ι Callback n} {es : List (Event ι Callback)}
    (h : step s .producer = some (s', es)) : Move s .producer s' es := by
  simp only [step, Option.map_eq_some_iff] at h
  obtain ⟨⟨b, pc, es'⟩, ha, he⟩ := h
  cases he
  cases hp : s.producer with
  | idle => simp [hp, addStep] at ha
  | called v =>
    simp only [hp, addStep] at ha
    cases ha
    exact .loadWrite v hp
  | loaded v w =>
    simp only [hp, addStep] at ha
    cases ha
    by_cases hf : w - s.buffer.mReadPos ≥ n.mSize
    · rw [if_pos hf]
      exact .testFull v w hp hf
    · rw [if_neg hf]
      exact .testRoom v w hp hf
  | full w =>
    simp only [hp, addStep] at ha
    cases ha
    exact .refuse w hp
  | room v w =>
    simp only [hp, addStep] at ha
    cases ha
    exact .assign v w hp
  | assigned v w =>
    simp only [hp, addStep] at ha
    cases ha
    exact .publish v w hp

theorem move_of_get {s s' : State ι Callback n} {c : ι} {es : List (Event ι Callback)}
    (h : step s (.consumer c) = some (s', es)) : Move s (.consumer c) s' es := by
  simp only [step, Option.map_eq_some_iff] at h
  obtain ⟨⟨b, pc, es'⟩, hg, he⟩ := h
  cases he
  cases hc : s.consumer c with
  | idle => simp [hc, getStep] at hg
  | called =>
    simp only [hc, getStep] at hg
    cases hg
    exact .firstLoad c hc
  | looping =>
    simp only [hc, getStep] at hg
    cases hg
    exact .loadRead c hc
  | loaded r =>
    simp only [hc, getStep] at hg
    split at hg
    · rename_i he
      cases hg
      exact .testEmpty c r hc he
    · rename_i he
      cases hg
      exact .testNonempty c r hc (UInt64.not_le.mp he)
  | nonempty r =>
    simp only [hc, getStep] at hg
    split at hg
    · rename_i he
      cases hg
      exact .claim c r hc he
    · rename_i he
      cases hg
      exact .exchangeFail c r hc he
  | claimed r =>
    simp only [hc, getStep] at hg
    cases hg
    exact .copy c r hc

theorem move_of_step {s s' : State ι Callback n} {a : Action ι Callback}
    {es : List (Event ι Callback)} (h : step s a = some (s', es)) : Move s a s' es := by
  cases a with
  | callAdd v =>
    simp only [step] at h
    split at h
    · rename_i hp
      cases h
      exact .callAdd v hp
    · contradiction
  | producer => exact move_of_add h
  | callGet c =>
    simp only [step] at h
    split at h
    · rename_i hc
      cases h
      exact .callGet c hc
    · contradiction
  | consumer c => exact move_of_get h

/-! ### A call that no other thread interrupts is the sequential operation -/

theorem solo_add_room {s : State ι Callback n} (v : RequestType Callback)
    (hp : s.producer = .idle) (hf : ¬ s.buffer.full) :
    ∃ b i, s.buffer.add v.1 v.2 = .ok (b, i) ∧
      exec step s [.callAdd v, .producer, .producer, .producer, .producer] =
        some ({ s with buffer := b }, [.published s.buffer.mWritePos v]) := by
  obtain ⟨buffer, producer, consumer⟩ := s
  dsimp only at hp hf
  subst hp
  have hroom : ¬ buffer.mWritePos - buffer.mReadPos ≥ n.mSize := hf
  refine ⟨_, _, RequestBuffer.add_room v.1 v.2 hf, ?_⟩
  simp only [exec, step, addStep, Option.map_some, if_neg hroom, List.append_nil, List.nil_append]

theorem solo_add_full {s : State ι Callback n} (v : RequestType Callback)
    (hp : s.producer = .idle) (hf : s.buffer.full) :
    ∃ what, s.buffer.add v.1 v.2 = .error what ∧
      exec step s [.callAdd v, .producer, .producer, .producer] = some (s, [.refused what]) := by
  obtain ⟨buffer, producer, consumer⟩ := s
  dsimp only at hp hf
  subst hp
  have hfull : buffer.mWritePos - buffer.mReadPos ≥ n.mSize := hf
  refine ⟨_, RequestBuffer.add_full v.1 v.2 hf, ?_⟩
  simp only [exec, step, addStep, Option.map_some, if_pos hfull, List.append_nil, List.nil_append]

theorem solo_get_nonempty {s : State ι Callback n} (c : ι) (hc : s.consumer c = .idle)
    (hne : s.buffer.mReadPos < s.buffer.mWritePos) :
    ∃ b v, s.buffer.get = (b, some v) ∧
      exec step s [.callGet c, .consumer c, .consumer c, .consumer c, .consumer c, .consumer c] =
        some ({ s with buffer := b },
          [.claimed c s.buffer.mReadPos, .returned c s.buffer.mReadPos v]) := by
  obtain ⟨buffer, producer, consumer⟩ := s
  dsimp only at hc hne
  have hnot : ¬ buffer.mReadPos ≥ buffer.mWritePos := UInt64.not_le.mpr hne
  have hback : Function.update consumer c .idle = consumer := by
    rw [← hc, Function.update_eq_self]
  refine ⟨_, _, RequestBuffer.get_nonempty hne, ?_⟩
  simp only [exec, step, getStep, hc, Option.map_some, Function.update_self, Function.update_idem,
    if_neg hnot, if_true, List.nil_append, List.cons_append, hback]

theorem solo_get_empty {s : State ι Callback n} (c : ι) (hc : s.consumer c = .idle)
    (he : ¬ s.buffer.mReadPos < s.buffer.mWritePos) :
    s.buffer.get = (s.buffer, none) ∧
      exec step s [.callGet c, .consumer c, .consumer c, .consumer c] = some (s, [.empty c]) := by
  obtain ⟨buffer, producer, consumer⟩ := s
  dsimp only at hc he
  have hempty : buffer.mReadPos ≥ buffer.mWritePos := UInt64.not_lt.mp he
  have hback : Function.update consumer c .idle = consumer := by
    rw [← hc, Function.update_eq_self]
  refine ⟨RequestBuffer.get_empty he, ?_⟩
  simp only [exec, step, getStep, hc, Option.map_some, Function.update_self, Function.update_idem,
    if_pos hempty, List.append_nil, List.nil_append, hback]

end RestClient.Shared
