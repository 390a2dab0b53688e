import RestClient.Message
import RestClient.RingSize

/-!
# The request ring, one call at a time (request_buffer.hpp:26-60)

`RequestBuffer` keeps the two 64-bit positions of the source and its array of
slots. `Positions b r w` says that `w` entries were added and `r` taken since
construction: the counters hold these numbers modulo `2 ^ 64` and at most
`mSize` entries are outstanding. Each operation has one lemma about it.
-/

namespace RestClient

abbrev RequestType (Callback : Type) := HttpRequest × Callback

structure RequestBuffer (Callback : Type) (n : RingSize) where
  mRequests : Fin n.mSize.toNat → RequestType Callback
  mWritePos : UInt64
  mReadPos : UInt64

/-- What `add` throws: the text it streams into `ss` (request_buffer.hpp:34-37). -/
def writeBufferFull (currentWritePos mReadPos : UInt64) : Str :=
  ("Write buffer full: " ++ toString currentWritePos ++ " " ++ toString mReadPos ++ "\n").toList

namespace RequestBuffer
variable {Callback : Type} {n : RingSize}

/-- A constructed buffer: both positions 0, slots default-constructed. -/
def initial [Inhabited Callback] : RequestBuffer Callback n := ⟨fun _ => default, 0, 0⟩

/-- `add`; the returned reference is the index of its slot. -/
def add (b : RequestBuffer Callback n) (httpRequest : HttpRequest) (hdl : Callback) :
    Except Str (RequestBuffer Callback n × Fin n.mSize.toNat) :=
  let currentWritePos := b.mWritePos
  if currentWritePos - b.mReadPos ≥ n.mSize then
    .error (writeBufferFull currentWritePos b.mReadPos)
  else
    .ok ({ b with
      mRequests := Function.update b.mRequests (n.slot currentWritePos) (httpRequest, hdl)
      mWritePos := b.mWritePos + 1 }, n.slot currentWritePos)

/-- `get`. With no other caller the compare-exchange succeeds at once. -/
def get (b : RequestBuffer Callback n) :
    RequestBuffer Callback n × Option (RequestType Callback) :=
  let localReadPos := b.mReadPos
  if localReadPos ≥ b.mWritePos then (b, none)
  else ({ b with mReadPos := localReadPos + 1 }, some (b.mRequests (n.slot localReadPos)))

/-- The fullness test of `add` (request_buffer.hpp:32). -/
def full (b : RequestBuffer Callback n) : Prop := b.mWritePos - b.mReadPos ≥ n.mSize

instance (b : RequestBuffer Callback n) : Decidable b.full :=
  inferInstanceAs (Decidable (b.mWritePos - b.mReadPos ≥ n.mSize))

/-- `w` entries were added and `r` of them taken. -/
structure Positions (b : RequestBuffer Callback n) (r w : ℕ) : Prop where
  write : b.mWritePos.toNat = w % 2 ^ 64
  read : b.mReadPos.toNat = r
  le : r ≤ w
  room : w ≤ r + n.mSize.toNat

/-- The live entries, oldest first. -/
def entries (b : RequestBuffer Callback n) (r w : ℕ) : List (RequestType Callback) :=
  RingWindow.window b.mRequests r w

theorem positions_initial [Inhabited Callback] :
    Positions (initial : RequestBuffer Callback n) 0 0 :=
  ⟨rfl, rfl, Nat.le_refl 0, Nat.zero_le _⟩

theorem Positions.occupancy {b : RequestBuffer Callback n} {r w : ℕ} (h : Positions b r w) :
    (b.mWritePos - b.mReadPos).toNat = w - r := by
  have hm := n.mSize_le
  have hr := b.mReadPos.toNat_lt
  have hroom := h.room
  have hle := h.le
  rw [h.read] at hr
  rw [UInt64.toNat_sub, h.write, h.read]
  omega

theorem Positions.full_iff {b : RequestBuffer Callback n} {r w : ℕ} (h : Positions b r w) :
    b.full ↔ w = r + n.mSize.toNat := by
  have hroom := h.room
  have hle := h.le
  rw [full, ge_iff_le, UInt64.le_iff_toNat_le, h.occupancy]
  omega

theorem add_full {b : RequestBuffer Callback n} (httpRequest : HttpRequest) (hdl : Callback)
    (h : b.full) :
    b.add httpRequest hdl = .error (writeBufferFull b.mWritePos b.mReadPos) := if_pos h

theorem add_room {b : RequestBuffer Callback n} (httpRequest : HttpRequest) (hdl : Callback)
    (h : ¬ b.full) :
    b.add httpRequest hdl = .ok ({ b with
      mRequests := Function.update b.mRequests (n.slot b.mWritePos) (httpRequest, hdl)
      mWritePos := b.mWritePos + 1 }, n.slot b.mWritePos) := if_neg h

theorem not_full_of_add {b b' : RequestBuffer Callback n} {i : Fin n.mSize.toNat}
    {httpRequest : HttpRequest} {hdl : Callback} (h : b.add httpRequest hdl = .ok (b', i)) :
    ¬ b.full := by
  intro hf
  rw [add_full httpRequest hdl hf] at h
  cases h

theorem stored_of_add {b b' : RequestBuffer Callback n} {i : Fin n.mSize.toNat}
    {httpRequest : HttpRequest} {hdl : Callback} (h : b.add httpRequest hdl = .ok (b', i)) :
    b'.mRequests i = (httpRequest, hdl) := by
  rw [add_room httpRequest hdl (not_full_of_add h)] at h
  cases h
  exact Function.update_self ..

/-- A successful `add` writes the slot of position `w` and nothing else. -/
theorem Positions.add {b b' : RequestBuffer Callback n} {r w : ℕ} {i : Fin n.mSize.toNat}
    {httpRequest : HttpRequest} {hdl : Callback} (h : Positions b r w)
    (ha : b.add httpRequest hdl = .ok (b', i)) :
    Positions b' r (w + 1) ∧ i = RingWindow.slotOf n.mSize.toNat w ∧
      b'.mRequests = Function.update b.mRequests i (httpRequest, hdl) ∧
      b'.entries r (w + 1) = b.entries r w ++ [(httpRequest, hdl)] := by
  by_cases hf : b.full
  · rw [add_full httpRequest hdl hf] at ha
    contradiction
  · have hroom : w < r + n.mSize.toNat := by
      have hne := mt h.full_iff.mpr hf
      have hle := h.room
      omega
    have hslot := n.slot_eq h.write
    rw [add_room httpRequest hdl hf] at ha
    cases ha
    refine ⟨⟨?_, h.read, by have hle := h.le; omega, hroom⟩, hslot, rfl, ?_⟩
    · show (b.mWritePos + 1).toNat = (w + 1) % 2 ^ 64
      rw [UInt64.toNat_add, h.write, UInt64.toNat_one, Nat.mod_add_mod]
    · rw [entries, entries, hslot]
      exact RingWindow.window_push b.mRequests _ h.le hroom

theorem get_empty {b : RequestBuffer Callback n} (h : ¬ b.mReadPos < b.mWritePos) :
    b.get = (b, none) := if_pos (UInt64.not_lt.mp h)

theorem get_nonempty {b : RequestBuffer Callback n} (h : b.mReadPos < b.mWritePos) :
    b.get = ({ b with mReadPos := b.mReadPos + 1 }, some (b.mRequests (n.slot b.mReadPos))) :=
  if_neg (UInt64.not_le.mpr h)

theorem nonempty_of_get {b b' : RequestBuffer Callback n} {v : RequestType Callback}
    (h : b.get = (b', some v)) : b.mReadPos < b.mWritePos := by
  by_contra hne
  rw [get_empty hne] at h
  cases h

theorem get_mRequests {b b' : RequestBuffer Callback n} {v : Option (RequestType Callback)}
    (h : b.get = (b', v)) : b'.mRequests = b.mRequests := by
  by_cases hne : b.mReadPos < b.mWritePos
  · rw [get_nonempty hne] at h
    cases h
    rfl
  · rw [get_empty hne] at h
    cases h
    rfl

/-- Without a counter wrap the emptiness test of `get` is exact. -/
theorem Positions.nonempty_iff {b : RequestBuffer Callback n} {r w : ℕ} (h : Positions b r w)
    (hw : w < 2 ^ 64) : b.mReadPos < b.mWritePos ↔ r < w := by
  rw [UInt64.lt_iff_toNat_lt, h.read, h.write, Nat.mod_eq_of_lt hw]

/-- A successful `get` takes the oldest entry. -/
theorem Positions.get {b : RequestBuffer Callback n} {r w : ℕ} (h : Positions b r w)
    (hne : b.mReadPos < b.mWritePos) :
    ∃ b' v, b.get = (b', some v) ∧ Positions b' (r + 1) w ∧ r < w ∧
      b'.mRequests = b.mRequests ∧ b.entries r w = v :: b'.entries (r + 1) w := by
  have hlt : r < w % 2 ^ 64 := by
    rw [← h.write, ← h.read]
    exact UInt64.lt_iff_toNat_lt.mp hne
  have hrw : r < w := Nat.lt_of_lt_of_le hlt (Nat.mod_le w _)
  have hsmall : r + 1 < 2 ^ 64 := by omega
  have hread : r = r % 2 ^ 64 := by omega
  refine ⟨{ b with mReadPos := b.mReadPos + 1 }, b.mRequests (n.slot b.mReadPos),
    get_nonempty hne, ⟨h.write, ?_, hrw, by have hroom := h.room; omega⟩, hrw, rfl, ?_⟩
  · show (b.mReadPos + 1).toNat = r + 1
    rw [UInt64.toNat_add, h.read, UInt64.toNat_one, Nat.mod_eq_of_lt hsmall]
  · rw [n.slot_eq (h.read.trans hread)]
    exact RingWindow.window_pop b.mRequests hrw

end RequestBuffer
end RestClient
