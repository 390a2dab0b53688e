import RestClient.Lib.DynamicBuffer
import RestClient.Message

/-!
# The buffer of the reads (flat_buffer.hpp)

One allocation with four offsets into it: before `in_` lies what has been consumed, from `in_`
to `out_` what can be read, from there to `last_` what may be written. `prepare` finds the room
where it is, by moving what can be read to the front, or in a larger allocation.
-/

namespace RestClient
open Machine DynamicBuffer

/-- `store` reaches from `begin_` to `end_`; `allocMax` is the allocator's `max_size`. -/
structure FlatBuffer where
  store : Str
  in_ : ℕ
  out_ : ℕ
  last_ : ℕ
  max_ : ℕ
  allocMax : ℕ
  in_le : in_ ≤ out_
  out_le : out_ ≤ last_
  last_le : last_ ≤ store.length

namespace FlatBuffer

/- What an allocation of `n` bytes holds. -/
abbrev Memory := (n : ℕ) → Vector Char n

def empty (allocMax : ℕ) : FlatBuffer :=
  ⟨[], 0, 0, 0, allocMax, allocMax, Nat.le_refl 0, Nat.le_refl 0, Nat.le_refl 0⟩

variable (b : FlatBuffer)

def size : ℕ := b.out_ - b.in_

def capacity : ℕ := b.store.length

def data : Str := (b.store.take b.out_).drop b.in_

def writable : Str := (b.store.take b.last_).drop b.out_

@[simp] theorem length_data : b.data.length = b.size := by
  have hin := b.in_le
  have hout := b.out_le
  have hlast := b.last_le
  simp only [data, size, List.length_drop, List.length_take]
  omega

theorem size_le_capacity : b.size ≤ b.capacity := by
  have hout := b.out_le
  have hlast := b.last_le
  unfold size capacity
  omega

/- What can be read lies in front of `rest`, behind it room for `n` bytes. -/
def relocate (rest : Str) (n : ℕ) (h : n ≤ rest.length) : FlatBuffer where
  store := b.data ++ rest
  in_ := 0
  out_ := b.size
  last_ := b.size + n
  max_ := b.max_
  allocMax := b.allocMax
  in_le := Nat.zero_le _
  out_le := Nat.le_add_right _ _
  last_le := by
    rw [List.length_append, length_data]
    exact Nat.add_le_add_left h _

/- `none` is a `std::length_error`, of `prepare` or of `alloc`. -/
def prepare (fresh : Memory) (n : ℕ) : Option FlatBuffer :=
  let len := b.size
  if hmax : b.max_ < len ∨ b.max_ - len < n then none
  else if hroom : n ≤ b.capacity - b.out_ then
    some { b with
      last_ := b.out_ + n
      out_le := Nat.le_add_right _ _
      last_le := by
        have hout := b.out_le
        have hlast := b.last_le
        unfold capacity at hroom
        omega }
  else if hmove : n ≤ b.capacity - len then
    some (b.relocate (b.store.drop len) n (by rw [List.length_drop]; exact hmove))
  else
    let newSize := min b.max_ (max (2 * len) (len + n))
    if b.allocMax < newSize then none
    else some (b.relocate ((fresh newSize).toList.drop len) n (by
      rw [List.length_drop, Vector.length_toList]
      omega))

/- The user of the buffer writes from `out_` on. -/
def write (bytes : Str) : Option FlatBuffer :=
  if h : bytes.length ≤ b.last_ - b.out_ then
    some { b with
      store := b.store.take b.out_ ++ (bytes ++ b.store.drop (b.out_ + bytes.length))
      last_le := by
        have hout := b.out_le
        have hlast := b.last_le
        simp only [List.length_append, List.length_take, List.length_drop]
        omega }
  else none

def commit (n : ℕ) : FlatBuffer where
  store := b.store
  in_ := b.in_
  out_ := b.out_ + min n (b.last_ - b.out_)
  last_ := b.last_
  max_ := b.max_
  allocMax := b.allocMax
  in_le := Nat.le_trans b.in_le (Nat.le_add_right _ _)
  out_le := by
    have hout := b.out_le
    omega
  last_le := b.last_le

def consume (n : ℕ) : FlatBuffer :=
  if h : b.out_ - b.in_ ≤ n then
    { b with in_ := 0, out_ := 0, in_le := Nat.le_refl 0, out_le := Nat.zero_le _ }
  else { b with in_ := b.in_ + n, in_le := by omega }

def clear : FlatBuffer :=
  { b with
    in_ := 0, out_ := 0, last_ := 0
    in_le := Nat.le_refl 0, out_le := Nat.le_refl 0, last_le := Nat.zero_le _ }

/- The allocation succeeds: there is less of it than before. -/
def shrinkToFit : FlatBuffer :=
  if b.size = b.capacity then b else b.relocate [] 0 (Nat.le_refl 0)

def setMaxSize (n : ℕ) : FlatBuffer := { b with max_ := n }

def reserve (fresh : Memory) (n : ℕ) : Option FlatBuffer :=
  let b := if b.max_ < n then b.setMaxSize n else b
  if b.capacity < n then b.prepare fresh (n - b.size) else some b

/-- An operation on the buffer; an allocation takes the contents of `fresh`. -/
def step : Step FlatBuffer (Memory × Request Char) (Outcome Char)
  | b, (fresh, .prepare n) =>
    match b.prepare fresh n with
    | some b' => some (b', [])
    | none => some (b, [.tooLong])
  | b, (_, .write bytes) => (b.write bytes).map fun b' => (b', [])
  | b, (_, .commit n) => some (b.commit n, [.appended (b.writable.take n)])
  | b, (_, .consume n) => some (b.consume n, [.removed (b.data.take n)])
  | b, (_, .clear) => some (b.clear, [.removed b.data])
  | b, (fresh, .reserve n) =>
    match b.reserve fresh n with
    | some b' => some (b', [])
    | none => some (b.setMaxSize (max b.max_ n), [.tooLong])
  | b, (_, .shrinkToFit) => some (b.shrinkToFit, [])
  | b, (_, .setMaxSize n) => some (b.setMaxSize n, [])

/-! ### What an operation does -/

@[simp] theorem relocate_data (rest : Str) (n : ℕ) (h : n ≤ rest.length) :
    (b.relocate rest n h).data = b.data := by
  show ((b.data ++ rest).take b.size).drop 0 = b.data
  rw [List.drop_zero, ← b.length_data, List.take_left]

theorem size_of_data {b b' : FlatBuffer} (h : b'.data = b.data) : b'.size = b.size := by
  rw [← length_data, h, length_data]

/- A `prepare` fails when the maximum would be exceeded, else there is room. -/
theorem prepare_spec {b : FlatBuffer} (fresh : Memory) (n : ℕ) (hmax : b.max_ ≤ b.allocMax) :
    (b.prepare fresh n = none ∧ b.max_ < b.size + n) ∨
      ∃ b', b.prepare fresh n = some b' ∧ b.size + n ≤ b.max_ ∧ b'.data = b.data ∧
        b'.last_ = b'.out_ + n ∧ b'.max_ = b.max_ ∧ b'.allocMax = b.allocMax ∧
        (b'.capacity = b.capacity ∨ b.capacity - b.size < n ∧
          b'.capacity = min b.max_ (max (2 * b.size) (b.size + n))) := by
  unfold prepare
  dsimp only
  by_cases hlong : b.max_ < b.size ∨ b.max_ - b.size < n
  · rw [dif_pos hlong]
    exact .inl ⟨rfl, by omega⟩
  rw [dif_neg hlong]
  have hfits : b.size + n ≤ b.max_ := by omega
  by_cases hroom : n ≤ b.capacity - b.out_
  · rw [dif_pos hroom]
    exact .inr ⟨_, rfl, hfits, rfl, rfl, rfl, rfl, .inl rfl⟩
  rw [dif_neg hroom]
  by_cases hmove : n ≤ b.capacity - b.size
  · rw [dif_pos hmove]
    refine .inr ⟨_, rfl, hfits, relocate_data .., rfl, rfl, rfl, .inl ?_⟩
    have hsize := b.size_le_capacity
    simp only [capacity, relocate, List.length_append, length_data, List.length_drop] at hsize ⊢
    omega
  rw [dif_neg hmove, if_neg (by omega)]
  refine .inr ⟨_, rfl, hfits, relocate_data .., rfl, rfl, rfl, .inr ⟨by omega, ?_⟩⟩
  simp only [capacity, relocate, List.length_append, length_data, List.length_drop,
    Vector.length_toList]
  omega

/- What a step of another offset leaves. -/
theorem write_spec {b : FlatBuffer} {bytes : Str} (h : bytes.length ≤ b.last_ - b.out_) :
    ∃ b', b.write bytes = some b' ∧ b'.data = b.data ∧ b'.last_ = b.last_ ∧ b'.out_ = b.out_ ∧
      bytes <+: b'.writable ∧ b'.max_ = b.max_ ∧ b'.allocMax = b.allocMax ∧
      b'.capacity = b.capacity := by
  have hout := b.out_le
  have hlast := b.last_le
  have hfront : (b.store.take b.out_).length = b.out_ := by
    rw [List.length_take]
    omega
  refine ⟨_, dif_pos h, ?_, rfl, rfl, ?_, rfl, rfl, ?_⟩
  · simp only [data]
    rw [List.take_left' hfront]
  · simp only [writable]
    rw [List.take_append, List.take_of_length_le (by omega), List.drop_left' hfront, hfront,
      List.take_append, List.take_of_length_le h]
    exact List.prefix_append _ _
  · simp only [capacity, List.length_append, List.length_take, List.length_drop]
    omega

theorem commit_data (n : ℕ) : (b.commit n).data = b.data ++ b.writable.take n := by
  have hin := b.in_le
  have hout := b.out_le
  have hlast := b.last_le
  have hfront : (b.store.take b.out_).length = b.out_ := by
    rw [List.length_take]
    omega
  have hmore : b.writable.take n = (b.store.drop b.out_).take (min n (b.last_ - b.out_)) := by
    rw [writable, List.drop_take, List.take_take]
  simp only [data, commit]
  rw [hmore, List.take_add, List.drop_append_of_le_length (by omega)]

theorem consume_data (n : ℕ) : (b.consume n).data = b.data.drop n := by
  unfold consume
  split
  · rename_i h
    rw [List.drop_eq_nil_of_le (by rw [length_data]; exact h)]
    rfl
  · rw [data, data, List.drop_drop]

theorem shrinkToFit_data : b.shrinkToFit.data = b.data := by
  unfold shrinkToFit
  split
  · rfl
  · exact relocate_data ..

/-! ### The contract -/

/-- The buffer has for its users what the dynamic buffer says. -/
structure Represents (limit : ℕ) (b : FlatBuffer) (d : DynamicBuffer Char) : Prop where
  readable : b.data = d.readable
  room : d.room ≤ b.last_ - b.out_
  written : d.written <+: b.writable
  maxSize : b.max_ = d.maxSize
  allocMax : b.allocMax = limit
  maxSize_le : d.maxSize ≤ limit

theorem empty_represents (limit : ℕ) : Represents limit (empty limit) (.empty limit) :=
  ⟨rfl, Nat.le_refl 0, List.prefix_rfl, rfl, rfl, Nat.le_refl _⟩

/- No room is left to the user. -/
theorem Represents.holding {limit : ℕ} {b b' : FlatBuffer} {d : DynamicBuffer Char}
    (h : Represents limit b d) {readable : Str} (hdata : b'.data = readable)
    (hmax : b'.max_ = b.max_) (halloc : b'.allocMax = b.allocMax) :
    Represents limit b' (d.holding readable) :=
  ⟨hdata, Nat.zero_le _, List.nil_prefix, hmax.trans h.maxSize, halloc.trans h.allocMax,
    h.maxSize_le⟩

theorem reserve_represents {limit n : ℕ} {b : FlatBuffer} {d : DynamicBuffer Char}
    (h : Represents limit b d) (fresh : Memory) (hn : n ≤ limit) :
    ∃ b', b.reserve fresh n = some b' ∧
      Represents limit b' { d.holding d.readable with maxSize := max d.maxSize n } := by
  obtain ⟨b₁, hb₁, hdata, hmax, halloc⟩ : ∃ b₁ : FlatBuffer,
      (if b.max_ < n then b.setMaxSize n else b) = b₁ ∧ b₁.data = b.data ∧
        b₁.max_ = max b.max_ n ∧ b₁.allocMax = b.allocMax := by
    split
    · exact ⟨_, rfl, rfl, by show n = _; omega, rfl⟩
    · exact ⟨_, rfl, rfl, by omega, rfl⟩
  have hbound := h.maxSize_le
  have hle : b₁.max_ ≤ b₁.allocMax := by rw [hmax, halloc, h.maxSize, h.allocMax]; omega
  have hsize := b₁.size_le_capacity
  have held : ∀ b' : FlatBuffer, b'.data = b₁.data → b'.max_ = b₁.max_ →
      b'.allocMax = b₁.allocMax →
        Represents limit b' { d.holding d.readable with maxSize := max d.maxSize n } := by
    intro b' hdata' hmax' halloc'
    refine ⟨hdata'.trans (hdata.trans h.readable), Nat.zero_le _, List.nil_prefix, ?_, ?_, ?_⟩
    · rw [hmax', hmax, h.maxSize]
    · rw [halloc', halloc, h.allocMax]
    · exact max_le hbound hn
  unfold reserve
  simp only [hb₁]
  split
  · rename_i hcap
    obtain ⟨-, hlong⟩ | ⟨b', hb', -, hdata', -, hmax', halloc', -⟩ :=
      prepare_spec fresh (n - b₁.size) hle
    · omega
    · exact ⟨b', hb', held b' hdata' hmax' halloc'⟩
  · exact ⟨b₁, rfl, held b₁ rfl rfl rfl⟩

theorem Represents.step {limit : ℕ} {b : FlatBuffer} {d d' : DynamicBuffer Char}
    {r : Request Char} {es : List (Outcome Char)} (h : Represents limit b d) (fresh : Memory)
    (hs : DynamicBuffer.step limit d r = some (d', es)) :
    ∃ b', FlatBuffer.step b (fresh, r) = some (b', es) ∧ Represents limit b' d' := by
  have hle : b.max_ ≤ b.allocMax := by rw [h.maxSize, h.allocMax]; exact h.maxSize_le
  have hsize : b.size = d.readable.length := by rw [← length_data, h.readable]
  cases r with
  | prepare n =>
    simp only [DynamicBuffer.step] at hs
    obtain ⟨hnone, hlong⟩ | ⟨b', hb', hfits, hdata, hlast, hmax, halloc, -⟩ :=
      prepare_spec fresh n hle
    · rw [if_pos (by rw [← h.maxSize, ← hsize]; exact hlong)] at hs
      cases hs
      exact ⟨b, by simp only [FlatBuffer.step, hnone], h⟩
    · rw [if_neg (by rw [← h.maxSize, ← hsize]; omega)] at hs
      cases hs
      refine ⟨b', by simp only [FlatBuffer.step, hb'], ?_⟩
      refine ⟨hdata.trans h.readable, ?_, List.nil_prefix, hmax.trans h.maxSize,
        halloc.trans h.allocMax, h.maxSize_le⟩
      rw [hlast, Nat.add_sub_cancel_left]
  | write bytes =>
    simp only [DynamicBuffer.step] at hs
    split at hs <;> cases hs
    rename_i hroom
    obtain ⟨b', hb', hdata, hlast, hout, hwritten, hmax, halloc, -⟩ :=
      write_spec (Nat.le_trans hroom h.room)
    refine ⟨b', by simp only [FlatBuffer.step, hb', Option.map_some], ?_⟩
    refine ⟨hdata.trans h.readable, ?_, hwritten, hmax.trans h.maxSize,
      halloc.trans h.allocMax, h.maxSize_le⟩
    rw [hlast, hout]
    exact h.room
  | commit n =>
    obtain ⟨hn, hs⟩ := Option.ite_none_right_eq_some.mp hs
    cases hs
    have htake : b.writable.take n = d.written.take n := by
      obtain ⟨rest, hrest⟩ := h.written
      rw [← hrest, List.take_append_of_le_length hn]
    refine ⟨b.commit n, by rw [FlatBuffer.step, htake], h.holding ?_ rfl rfl⟩
    rw [commit_data, h.readable, htake]
  | consume n =>
    cases hs
    refine ⟨b.consume n, by rw [FlatBuffer.step, h.readable], h.holding ?_ ?_ ?_⟩
    · rw [consume_data, h.readable]
    · unfold consume
      split <;> rfl
    · unfold consume
      split <;> rfl
  | clear =>
    cases hs
    exact ⟨b.clear, by rw [FlatBuffer.step, h.readable], h.holding rfl rfl rfl⟩
  | reserve n =>
    obtain ⟨hn, hs⟩ := Option.ite_none_right_eq_some.mp hs
    cases hs
    obtain ⟨b', hb', hrep⟩ := reserve_represents h fresh hn
    exact ⟨b', by simp only [FlatBuffer.step, hb'], hrep⟩
  | shrinkToFit =>
    cases hs
    refine ⟨b.shrinkToFit, rfl, h.holding (b.shrinkToFit_data.trans h.readable) ?_ ?_⟩
    · unfold shrinkToFit
      split <;> rfl
    · unfold shrinkToFit
      split <;> rfl
  | setMaxSize n =>
    obtain ⟨hn, hs⟩ := Option.ite_none_right_eq_some.mp hs
    cases hs
    exact ⟨b.setMaxSize n, rfl, h.readable, h.room, h.written, rfl, h.allocMax, hn⟩

theorem Represents.run {limit : ℕ} {b : FlatBuffer} {d d' : DynamicBuffer Char}
    {as : List (Memory × Request Char)} {log : List (Outcome Char)} (h : Represents limit b d)
    (hr : Run (DynamicBuffer.step limit) d (as.map Prod.snd) d' log) :
    ∃ b', Run FlatBuffer.step b as b' log ∧ Represents limit b' d' := by
  induction as generalizing b d log with
  | nil =>
    obtain ⟨rfl, rfl⟩ := hr.nil_inv
    exact ⟨b, .nil, h⟩
  | cons a as ih =>
    obtain ⟨d₁, es, log', hs, hr', rfl⟩ := hr.cons_inv
    obtain ⟨b₁, hs₁, h₁⟩ := h.step a.1 hs
    obtain ⟨b', hrun, h'⟩ := ih h₁ hr'
    exact ⟨b', (Run.single hs₁).append hrun, h'⟩

/-- As long as its users keep to the contract the buffer does what the contract says, wherever
the bytes are moved and whatever new memory holds: a request fails exactly when the maximum
would be exceeded, and the bytes that have been written leave in order. -/
theorem flat_refines_dynamic (limit : ℕ) (as : List (Memory × Request Char))
    (d : DynamicBuffer Char) (log : List (Outcome Char))
    (h : Run (DynamicBuffer.step limit) (.empty limit) (as.map Prod.snd) d log) :
    ∃ b, Run FlatBuffer.step (empty limit) as b log ∧ Represents limit b d ∧
      appended log = removed log ++ b.data := by
  obtain ⟨b, hrun, hrep⟩ := (empty_represents limit).run h
  exact ⟨b, hrun, hrep, by rw [hrep.readable, ← conserved h]; rfl⟩

/- The first allocation is of 4 bytes and the second of 8; the last request is too long. -/
theorem flat_refines_dynamic_moved : ∃ b,
    Run FlatBuffer.step (empty 8) ([.prepare 4, .write "HTTP".toList, .commit 4, .consume 3,
      .prepare 3, .write "/1.".toList, .commit 3, .prepare 4, .write "1 20".toList, .commit 4,
      .prepare 1].map fun r => (fun n => Vector.replicate n '?', r)) b
      [.appended "HTTP".toList, .removed "HTT".toList, .appended "/1.".toList,
        .appended "1 20".toList, .tooLong] ∧
    Represents 8 b ⟨"P/1.1 20".toList, 0, [], 8, Nat.le_refl 0⟩ ∧
    "HTTP/1.1 20".toList = "HTT".toList ++ b.data :=
  flat_refines_dynamic 8 _ _ _ (run_of_exec rfl)

end FlatBuffer
end RestClient
