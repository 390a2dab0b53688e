import RestClient.BufferRefinement

/-!
# Fullness and emptiness across the wrap of the positions

`add` subtracts the positions modulo `2 ^ 64`, `get` compares them. The two
tests agree as long as the write position has not wrapped past the read position.
-/

namespace RestClient.RequestBuffer
open Machine
variable {Callback : Type} {n : RingSize}

/-- The number of live entries the positions stand for. -/
def occupied (b : RequestBuffer Callback n) : ℕ := (b.mWritePos - b.mReadPos).toNat

/- The positions that `add` and `get` must keep. -/
def Bounded (b : RequestBuffer Callback n) : Prop := b.occupied ≤ n.mSize.toNat

instance (b : RequestBuffer Callback n) : Decidable b.Bounded :=
  inferInstanceAs (Decidable (b.occupied ≤ n.mSize.toNat))

/- `add` refuses only a full ring, `get` only an empty one, and both keep the bound. -/
structure TestsAgree (b : RequestBuffer Callback n) : Prop where
  refuses : ∀ httpRequest hdl,
    (∃ what, b.add httpRequest hdl = .error what) ↔ b.occupied = n.mSize.toNat
  empty : b.get.2 = none ↔ b.occupied = 0
  add_bounded : ∀ httpRequest hdl b' i, b.add httpRequest hdl = .ok (b', i) → b'.Bounded
  get_bounded : b.get.1.Bounded

theorem Bounded.full_iff {b : RequestBuffer Callback n} (h : b.Bounded) :
    b.full ↔ b.occupied = n.mSize.toNat := by
  have hle : b.occupied ≤ n.mSize.toNat := h
  rw [full, ge_iff_le, UInt64.le_iff_toNat_le]
  show n.mSize.toNat ≤ b.occupied ↔ _
  omega

theorem occupied_eq_zero_iff (b : RequestBuffer Callback n) :
    b.occupied = 0 ↔ b.mWritePos = b.mReadPos := by
  rw [← UInt64.toNat_inj, occupied, UInt64.toNat_sub]
  have hw := b.mWritePos.toNat_lt
  have hr := b.mReadPos.toNat_lt
  omega

/- One more entry: the wrap of the write position does not matter. -/
theorem occupied_write_succ {b : RequestBuffer Callback n} (h : b.occupied < n.mSize.toNat) :
    (b.mWritePos + 1 - b.mReadPos).toNat = b.occupied + 1 := by
  have hm := n.mSize_le
  have hw := b.mWritePos.toNat_lt
  have hr := b.mReadPos.toNat_lt
  simp only [occupied, UInt64.toNat_sub, UInt64.toNat_add, UInt64.toNat_one] at h ⊢
  omega

theorem occupied_read_succ {b : RequestBuffer Callback n} (h : b.occupied ≠ 0) :
    (b.mWritePos - (b.mReadPos + 1)).toNat = b.occupied - 1 := by
  have hw := b.mWritePos.toNat_lt
  have hr := b.mReadPos.toNat_lt
  simp only [occupied, UInt64.toNat_sub, UInt64.toNat_add, UInt64.toNat_one] at h ⊢
  omega

theorem Bounded.add {b b' : RequestBuffer Callback n} {httpRequest : HttpRequest} {hdl : Callback}
    {i : Fin n.mSize.toNat} (h : b.Bounded) (ha : b.add httpRequest hdl = .ok (b', i)) :
    b'.Bounded := by
  have hnot := not_full_of_add ha
  have hlt : b.occupied < n.mSize.toNat := by
    have hne := mt h.full_iff.mpr hnot
    have hle : b.occupied ≤ n.mSize.toNat := h
    omega
  rw [add_room httpRequest hdl hnot] at ha
  cases ha
  show (b.mWritePos + 1 - b.mReadPos).toNat ≤ n.mSize.toNat
  rw [occupied_write_succ hlt]
  exact hlt

theorem Bounded.get {b : RequestBuffer Callback n} (h : b.Bounded) : b.get.1.Bounded := by
  by_cases hne : b.mReadPos < b.mWritePos
  · have hsome : b.occupied ≠ 0 := by
      rw [Ne, occupied_eq_zero_iff]
      intro heq
      rw [heq] at hne
      exact absurd hne (UInt64.lt_irrefl _)
    have hle : b.occupied ≤ n.mSize.toNat := h
    rw [get_nonempty hne]
    show (b.mWritePos - (b.mReadPos + 1)).toNat ≤ n.mSize.toNat
    rw [occupied_read_succ hsome]
    omega
  · rw [get_empty hne]
    exact h

theorem get_none_iff (b : RequestBuffer Callback n) :
    b.get.2 = none ↔ ¬ b.mReadPos < b.mWritePos := by
  by_cases hne : b.mReadPos < b.mWritePos
  · rw [get_nonempty hne]
    simp [hne]
  · rw [get_empty hne]
    simp [hne]

/-- The two tests agree if and only if the write position is not behind the read position. -/
theorem tests_agree_iff_ordered (b : RequestBuffer Callback n) (h : b.Bounded) :
    b.TestsAgree ↔ b.mReadPos ≤ b.mWritePos := by
  constructor
  · intro hagree
    have hempty := hagree.empty
    rw [get_none_iff, occupied_eq_zero_iff] at hempty
    by_contra hbehind
    have hlt : b.mWritePos < b.mReadPos := UInt64.not_le.mp hbehind
    have hsame := hempty.mp (UInt64.not_lt.mpr (UInt64.le_of_lt hlt))
    rw [hsame] at hlt
    exact UInt64.lt_irrefl _ hlt
  · intro hle
    refine ⟨?_, ?_, fun _ _ _ _ => h.add, h.get⟩
    · intro httpRequest hdl
      rw [← h.full_iff]
      constructor
      · rintro ⟨what, ha⟩
        by_contra hnot
        rw [add_room httpRequest hdl hnot] at ha
        cases ha
      · intro hf
        exact ⟨_, add_full httpRequest hdl hf⟩
    · rw [get_none_iff, occupied_eq_zero_iff, ← UInt64.toNat_inj, UInt64.lt_iff_toNat_lt]
      have hnat := UInt64.le_iff_toNat_le.mp hle
      omega

/- Two entries in a ring of two slots. -/
theorem tests_agree_two_entries :
    TestsAgree (⟨fun _ => default, 3, 1⟩ : RequestBuffer ℕ .smallest) :=
  (tests_agree_iff_ordered _ (by decide +kernel)).mpr (by decide +kernel)

/- An `add` with room is one step of a run, so is a `get` that finds an entry. -/
theorem run_add {b : RequestBuffer Callback n} {r w : ℕ} (v : RequestType Callback)
    (h : b.Positions r w) (hroom : w < r + n.mSize.toNat) :
    ∃ b' log, Run callStep b [.add v.1 v.2] b' log ∧ b'.Positions r (w + 1) := by
  have hnot : ¬ b.full := by
    rw [h.full_iff]
    omega
  obtain ⟨b', i, ha⟩ : ∃ b' i, b.add v.1 v.2 = .ok (b', i) := ⟨_, _, add_room v.1 v.2 hnot⟩
  have hstep : (b.call (.add v.1 v.2)).1 = b' := by
    rw [call, ha]
  exact ⟨_, _, .single rfl, hstep ▸ (h.add ha).1⟩

theorem run_get {b : RequestBuffer Callback n} {r w : ℕ} (h : b.Positions r w)
    (hne : b.mReadPos < b.mWritePos) :
    ∃ b' log, Run callStep b [.get] b' log ∧ b'.Positions (r + 1) w := by
  obtain ⟨b', v, hget, hpos, -⟩ := h.get hne
  have hstep : (b.call .get).1 = b' := by
    rw [call, hget]
  exact ⟨_, _, .single rfl, hstep ▸ hpos⟩

/- Any number of entries below `2 ^ 64` may have passed through an empty ring. -/
theorem run_passed [Inhabited Callback] (k : ℕ) (hk : k < 2 ^ 64) :
    ∃ (cs : List (Call Callback)) (b : RequestBuffer Callback n) (log : List (Answer Callback n)),
      Run callStep initial cs b log ∧ b.Positions k k := by
  induction k with
  | zero => exact ⟨[], initial, [], .nil, positions_initial⟩
  | succ k ih =>
    obtain ⟨cs, b, log, hr, hpos⟩ := ih (Nat.lt_of_succ_lt hk)
    have hsize := n.mSize_pos
    obtain ⟨b₁, log₁, hr₁, hpos₁⟩ := run_add default hpos (by omega)
    have hne := (hpos₁.nonempty_iff hk).mpr (Nat.lt_succ_self k)
    obtain ⟨b₂, log₂, hr₂, hpos₂⟩ := run_get hpos₁ hne
    exact ⟨_, b₂, _, (hr.append hr₁).append hr₂, hpos₂⟩

/-- The wrap is reached by `2 ^ 64` calls of `add`, the last entry still live. -/
theorem wrap_reached [Inhabited Callback] :
    ∃ (cs : List (Call Callback)) (b : RequestBuffer Callback n) (log : List (Answer Callback n)),
      Run callStep initial cs b log ∧ b.mWritePos.toNat = 0 ∧ b.mReadPos.toNat = 2 ^ 64 - 1 := by
  obtain ⟨cs, b, log, hr, hpos⟩ := @run_passed Callback n _ (2 ^ 64 - 1) (by decide)
  have hsize := n.mSize_pos
  obtain ⟨b', log', hr', hpos'⟩ := run_add default hpos (by omega)
  exact ⟨_, b', _, hr.append hr', hpos'.write, hpos'.read⟩

/-- One entry is live and the write position has wrapped to 0: `get` finds the ring empty. -/
theorem wrapped_ring_found_empty :
    let b : RequestBuffer ℕ .smallest := ⟨fun _ => default, 0, 0xFFFFFFFFFFFFFFFF⟩
    b.Bounded ∧ b.occupied = 1 ∧ b.get.2 = none ∧ ¬ b.TestsAgree := by
  intro b
  have hone : b.occupied = 1 := by decide +kernel
  have hempty : b.get.2 = none := (get_none_iff b).mpr (by decide +kernel)
  refine ⟨by decide +kernel, hone, hempty, ?_⟩
  intro hagree
  have hzero := hagree.empty.mp hempty
  rw [hone] at hzero
  exact absurd hzero Nat.one_ne_zero

end RestClient.RequestBuffer
