import RestClient.Lib.RingWindow
import Mathlib.Tactic.IntervalCases

/-!
# Ring sizing (request_buffer.hpp:17-24)

`mSize` is the power of two that `GetClosestExp` computes from the template
argument `SIZE`; the ring mask is `mSize - 1`, so masking a 64-bit position is
reduction modulo `mSize`.
-/

namespace RestClient

/-- `LOG2` (request_buffer.hpp:17-19); the source's default argument is `p = 0`. -/
def log2 (size : UInt64) (p : ℕ) : ℕ :=
  if size ≤ 1 then p else log2 (size / 2) (p + 1)
termination_by size.toNat
decreasing_by
  rename_i h
  have hlt : 1 < size.toNat := UInt64.lt_iff_toNat_lt.mp (UInt64.not_le.mp h)
  rw [UInt64.toNat_div]
  exact Nat.div_lt_self (by omega) (by decide)

/-- `GetClosestExp` (request_buffer.hpp:20-22); `1UL` has 64 bits. -/
def getClosestExp (size : UInt64) : UInt64 := 1 <<< (log2 (size - 1) 0 + 1).toUInt64

/- Template arguments for which the shift stays in range, up to `2 ^ 63`. -/
def RingSize := {size : UInt64 // 1 ≤ size ∧ size ≤ 0x8000000000000000}

def RingSize.size (n : RingSize) : UInt64 := n.val
def RingSize.mSize (n : RingSize) : UInt64 := getClosestExp n.size
def RingSize.mRingMask (n : RingSize) : UInt64 := getClosestExp n.size - 1

/-- `SIZE = 4096`, the default template argument, which `Session` uses. -/
def RingSize.standard : RingSize := ⟨4096, by decide +kernel⟩

/-- The smallest template argument; its ring has two slots. -/
def RingSize.smallest : RingSize := ⟨1, by decide +kernel⟩

theorem RingSize.standard_mSize : RingSize.standard.mSize = 4096 := by decide +kernel

theorem log2_eq (size : UInt64) (p : ℕ) : log2 size p = p + Nat.log2 size.toNat := by
  fun_induction log2 size p with
  | case1 size p h =>
    have hle : size.toNat ≤ 1 := UInt64.le_iff_toNat_le.mp h
    have hlog : Nat.log2 size.toNat = 0 := by
      interval_cases size.toNat <;> rfl
    rw [hlog, Nat.add_zero]
  | case2 size p h ih =>
    have hlt : 2 ≤ size.toNat := UInt64.lt_iff_toNat_lt.mp (UInt64.not_le.mp h)
    have htwo : (2 : UInt64).toNat = 2 := rfl
    rw [ih, UInt64.toNat_div, htwo]
    conv_rhs => rw [Nat.log2_def, if_pos hlt]
    omega

/-- The distance `GetClosestExp` shifts by is that of a 64-bit shift for these template
arguments and for no other. -/
theorem shift_in_range_iff (size : UInt64) :
    log2 (size - 1) 0 + 1 < 64 ↔ 1 ≤ size ∧ size ≤ 0x8000000000000000 := by
  have hsub : (size - 1).toNat = (2 ^ 64 - 1 + size.toNat) % 2 ^ 64 := UInt64.toNat_sub size 1
  have hlt := size.toNat_lt
  have hone : (1 : UInt64).toNat = 1 := rfl
  have htop : (0x8000000000000000 : UInt64).toNat = 2 ^ 63 := rfl
  rw [log2_eq, Nat.zero_add, UInt64.le_iff_toNat_le, UInt64.le_iff_toNat_le, hone, htop]
  by_cases hz : (size - 1).toNat = 0
  · -- `SIZE` is 1
    have hlog : Nat.log2 0 = 0 := rfl
    rw [hz, hlog]
    omega
  · have hlog := Nat.log2_lt hz (k := 63)
    omega

namespace RingSize
variable (n : RingSize)

/-- The shift distance `LOG2(SIZE - 1) + 1`. -/
def exponent : ℕ := Nat.log2 (n.size.toNat - 1) + 1

theorem log2_size : log2 (n.size - 1) 0 + 1 = n.exponent := by
  have hsub : (n.size - 1).toNat = n.size.toNat - 1 :=
    UInt64.toNat_sub_of_le _ _ n.property.1
  rw [log2_eq, hsub, Nat.zero_add, exponent]

theorem exponent_le : n.exponent ≤ 63 := by
  have hshift := (shift_in_range_iff n.size).mpr n.property
  rw [log2_size] at hshift
  omega

theorem mSize_toNat : n.mSize.toNat = 2 ^ n.exponent := by
  have he := n.exponent_le
  have hexp : n.exponent.toUInt64.toNat = n.exponent := by
    show n.exponent % 2 ^ 64 = n.exponent
    exact Nat.mod_eq_of_lt (by omega)
  have hpow : 2 ^ n.exponent < 2 ^ 64 := Nat.pow_lt_pow_right (by decide) (by omega)
  rw [mSize, getClosestExp, log2_size, UInt64.toNat_shiftLeft, hexp, UInt64.toNat_one,
    Nat.mod_eq_of_lt (by omega : n.exponent < 64), Nat.one_shiftLeft, Nat.mod_eq_of_lt hpow]

theorem size_le_mSize : n.size.toNat ≤ n.mSize.toNat := by
  have hlt : n.size.toNat - 1 < 2 ^ (Nat.log2 (n.size.toNat - 1) + 1) := Nat.lt_log2_self
  rw [mSize_toNat, exponent]
  omega

/-- The power of two is the next one, so less than half of the ring is beyond `SIZE`. -/
theorem mSize_lt (h : 2 ≤ n.size.toNat) : n.mSize.toNat < 2 * n.size.toNat := by
  have hle : 2 ^ Nat.log2 (n.size.toNat - 1) ≤ n.size.toNat - 1 := Nat.log2_self_le (by omega)
  rw [mSize_toNat, exponent, Nat.pow_succ]
  omega

theorem mSize_pos : 0 < n.mSize.toNat := by
  rw [mSize_toNat]
  exact Nat.two_pow_pos _

theorem mSize_le : n.mSize.toNat ≤ 2 ^ 63 := by
  rw [mSize_toNat]
  exact Nat.pow_le_pow_right (by decide) n.exponent_le

theorem mSize_dvd : n.mSize.toNat ∣ 2 ^ 64 := by
  rw [mSize_toNat]
  exact Nat.pow_dvd_pow 2 (n.exponent_le.trans (by decide))

instance : NeZero n.mSize.toNat := ⟨n.mSize_pos.ne'⟩

theorem mRingMask_toNat : n.mRingMask.toNat = n.mSize.toNat - 1 := by
  have hle : (1 : UInt64) ≤ getClosestExp n.size := UInt64.le_iff_toNat_le.mpr n.mSize_pos
  exact UInt64.toNat_sub_of_le _ _ hle

/-- Masking a position is reduction modulo the ring size. -/
theorem and_mask (p : UInt64) : (p &&& n.mRingMask).toNat = p.toNat % n.mSize.toNat := by
  rw [UInt64.toNat_and, mRingMask_toNat, mSize_toNat, Nat.and_two_pow_sub_one_eq_mod]

theorem and_mask_eq_mod (p : UInt64) : p &&& n.mRingMask = p % n.mSize := by
  refine UInt64.toNat_inj.mp ?_
  rw [n.and_mask, UInt64.toNat_mod]

/-- The index `p & mRingMask` of `mRequests`. -/
def slot (p : UInt64) : Fin n.mSize.toNat :=
  ⟨(p &&& n.mRingMask).toNat, by rw [n.and_mask]; exact Nat.mod_lt _ n.mSize_pos⟩

/-- Because the ring size divides `2 ^ 64`, the counter wrap does not move slots. -/
theorem slot_eq {p : UInt64} {w : ℕ} (h : p.toNat = w % 2 ^ 64) :
    n.slot p = RingWindow.slotOf n.mSize.toNat w := by
  refine Fin.ext ?_
  show (p &&& n.mRingMask).toNat = w % n.mSize.toNat
  rw [n.and_mask, h, Nat.mod_mod_of_dvd _ n.mSize_dvd]

/- The positions of `k` successive increments, across the wrap too, are those of `k`
numbers in a row. -/
theorem map_slot_iterate {p : UInt64} {w : ℕ} (h : p.toNat = w % 2 ^ 64) (k : ℕ) :
    (List.iterate (· + 1) p k).map n.slot =
      (List.range' w k).map (RingWindow.slotOf n.mSize.toNat) := by
  induction k generalizing p w with
  | zero => rfl
  | succ k ih =>
    have hnext : (p + 1).toNat = (w + 1) % 2 ^ 64 := by
      rw [UInt64.toNat_add, h, UInt64.toNat_one, Nat.mod_add_mod]
    rw [List.iterate, List.range'_succ, List.map_cons, List.map_cons, ih hnext, n.slot_eq h]

/-- The ring is a power of two that holds `SIZE` entries and, beyond one, not twice as
many, computed without a shift out of range; masking is reduction modulo its size, and
`mSize` positions in a row, from whatever position, use `mSize` slots. -/
theorem sizing_sound (n : RingSize) :
    log2 (n.size - 1) 0 + 1 < 64 ∧ n.mSize.toNat.isPowerOfTwo ∧ n.size ≤ n.mSize ∧
    (2 ≤ n.size → n.mSize.toNat < 2 * n.size.toNat) ∧ (n.size = 1 → n.mSize = 2) ∧
    ∀ p : UInt64, p &&& n.mRingMask = p % n.mSize ∧
      (p &&& n.mRingMask).toNat < n.mSize.toNat ∧
      ((List.iterate (· + 1) p n.mSize.toNat).map n.slot).Nodup := by
  refine ⟨(shift_in_range_iff n.size).mpr n.property, ⟨n.exponent, n.mSize_toNat⟩,
    UInt64.le_iff_toNat_le.mpr n.size_le_mSize, ?_, ?_, ?_⟩
  · intro h
    exact n.mSize_lt (UInt64.le_iff_toNat_le.mp h)
  · intro h
    rw [mSize, h]
    decide +kernel
  · intro p
    refine ⟨n.and_mask_eq_mod p, (n.slot p).isLt, ?_⟩
    have hsmall : p.toNat = p.toNat % 2 ^ 64 := (Nat.mod_eq_of_lt p.toNat_lt).symm
    rw [n.map_slot_iterate hsmall]
    exact RingWindow.nodup_slots p.toNat (Nat.le_refl _)

/- Eight slots for five entries, at positions that wrap to 0; two slots for one entry. -/
theorem sizing_sound_five :
    let n : RingSize := ⟨5, by decide +kernel⟩
    n.mSize.toNat < 2 * 5 ∧ smallest.mSize = 2 ∧
      ((List.iterate (· + 1) 0xfffffffffffffffd n.mSize.toNat).map n.slot).Nodup := by
  intro n
  obtain ⟨-, -, -, hless, -, hmask⟩ := sizing_sound n
  obtain ⟨-, -, -, -, htwo, -⟩ := sizing_sound smallest
  obtain ⟨-, -, hslots⟩ := hmask 0xfffffffffffffffd
  exact ⟨hless (by decide +kernel), htwo rfl, hslots⟩

end RingSize
end RestClient
