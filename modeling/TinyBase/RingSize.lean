import Mathlib.Order.Bounds.Basic
import TinyBase.MpmcRingBuffer

/-!
# The size of a ring (`InitMPMCRingBuffer`, GCC build)

The size in bytes is passed on as an `i32`, and its leading zeros are counted in the 64 bits it is
extended to. Where the language does not define what happens, for the leading zeros of 0 and for a
shift by more bits than an `int` has, there is no ring.
-/

namespace TinyBase

/-- `__builtin_clzl`, undefined for 0. -/
def builtinClzl (x : UInt64) : Option Nat := if x = 0 then none else some (63 - x.toNat.log2)

/-- `1 << Shift`. -/
def shiftOne (shift : Nat) : Option UInt64 :=
  if shift < 32 then some (UInt64.ofNat (2 ^ shift)) else none

def roundDownToPow2 (value : Int32) : Option Usz := do
  let zeros ← builtinClzl value.toInt64.toUInt64
  let trailingZero := 64 - zeros
  shiftOne (trailingZero - 1)

/-- `mpmc_ringbuf`. -/
structure MpmcRingbuf where
  ring : Ptr
  maxCur : Usz
  readCur : Usz
  writeCur : Usz
deriving DecidableEq

def initMPMCRingBuffer (ring : Ptr) (ringSize : Usz) : Option MpmcRingbuf :=
  if ring ≠ 0 then do
    let ringSize ← roundDownToPow2 ringSize.toUInt32.toInt32
    pure { ring := ring, maxCur := ringSize / 8 - 1, readCur := 0, writeCur := 0 }
  else pure { ring := 0, maxCur := 0, readCur := 0, writeCur := 0 }

/-- There is a ring, and of `ringSize` bytes it takes as many slots as a power of two may; a size
without a slot is not used for one. -/
def RingFits (ring : Ptr) (ringSize : Usz) : Prop :=
  ∃ queue, initMPMCRingBuffer ring ringSize = some queue ∧
    (8 ≤ ringSize.toNat → (∀ cur : Usz, (cur &&& queue.maxCur).toNat < ringSize.toNat / 8) ∧
      IsGreatest {n | (∃ k, n = 2 ^ k) ∧ 8 * n ≤ ringSize.toNat} (queue.maxCur.toNat + 1)) ∧
    (ringSize.toNat < 8 → ∀ item i, ¬ (mpmcRingBufferPush queue.maxCur item).Touches (.slot i) ∧
      ¬ (mpmcRingBufferPop queue.maxCur).Touches (.slot i))

section
variable {ring : Ptr} {ringSize : Usz}

theorem toNat_signExtend (x : UInt64) : x.toUInt32.toInt32.toInt64.toUInt64.toNat =
    if x.toNat % 2 ^ 32 < 2 ^ 31 then x.toNat % 2 ^ 32
      else x.toNat % 2 ^ 32 + (2 ^ 64 - 2 ^ 32) := by
  have hbits : x.toUInt32.toInt32.toInt64.toUInt64.toNat =
    ((x.toBitVec.setWidth 32).signExtend 64).toNat := rfl
  rw [hbits, BitVec.toNat_signExtend, BitVec.msb_eq_decide]
  simp only [BitVec.toNat_setWidth, UInt64.toNat_toBitVec, decide_eq_true_eq]
  split_ifs <;> omega

theorem builtinClzl_of_pos {x : UInt64} (hx : 0 < x.toNat) :
    builtinClzl x = some (63 - x.toNat.log2) :=
  if_neg (by rintro rfl; exact absurd hx (Nat.lt_irrefl 0))

/-- The low 32 bits are rounded down, if they are a positive number of 32 bits. -/
theorem roundDownToPow2_eq (x : UInt64) : roundDownToPow2 x.toUInt32.toInt32 =
    if x.toNat % 2 ^ 32 = 0 ∨ 2 ^ 31 ≤ x.toNat % 2 ^ 32 then none
    else some (UInt64.ofNat (2 ^ (x.toNat % 2 ^ 32).log2)) := by
  have hlong := toNat_signExtend x
  rw [roundDownToPow2]
  generalize x.toUInt32.toInt32.toInt64.toUInt64 = y at hlong ⊢
  have hlow : x.toNat % 2 ^ 32 < 2 ^ 32 := Nat.mod_lt _ (by decide)
  generalize x.toNat % 2 ^ 32 = v at hlong hlow ⊢
  rcases Nat.eq_zero_or_pos v with rfl | hpos
  · rw [if_pos (by decide)] at hlong
    rw [if_pos (.inl rfl), builtinClzl, if_pos (UInt64.toNat_inj.1 hlong),
      Option.bind_eq_bind, Option.bind_none]
  · have hy : 0 < y.toNat := by split_ifs at hlong <;> omega
    rw [builtinClzl_of_pos hy, Option.bind_eq_bind, Option.bind_some]
    rcases Nat.lt_or_ge v (2 ^ 31) with hlt | hge
    · rw [if_pos hlt] at hlong
      have hlog : v.log2 < 31 := (Nat.log2_lt (by omega)).2 hlt
      have hback : 64 - (63 - v.log2) - 1 = v.log2 := by omega
      simp only [hlong, hback]
      rw [if_neg (by omega), shiftOne, if_pos (by omega)]
    · rw [if_neg (Nat.not_lt.2 hge)] at hlong
      have hlog : y.toNat.log2 = 63 := (Nat.log2_eq_iff (by omega)).2 (by omega)
      simp only [hlog]
      rw [if_pos (.inr hge), shiftOne, if_neg (by decide)]

theorem initMPMCRingBuffer_eq (hring : ring ≠ 0) : initMPMCRingBuffer ring ringSize =
    if ringSize.toNat % 2 ^ 32 = 0 ∨ 2 ^ 31 ≤ ringSize.toNat % 2 ^ 32 then none
    else some { ring := ring, maxCur := UInt64.ofNat (2 ^ (ringSize.toNat % 2 ^ 32).log2) / 8 - 1,
                readCur := 0, writeCur := 0 } := by
  rw [initMPMCRingBuffer, if_pos hring, roundDownToPow2_eq]
  split_ifs <;> rfl

/-- `MaxCur` of a ring of `2 ^ n` bytes: below 8 bytes the subtraction wraps around. -/
theorem maxCur_of_two_pow {n : Nat} (hn : n < 64) :
    UInt64.ofNat (2 ^ n) / 8 - 1 = if n < 3 then uszMax else RingBuffer.maxCur (n - 3) := by
  have hword : (UInt64.ofNat (2 ^ n)).toNat = 2 ^ n :=
    UInt64.toNat_ofNat_of_lt_two_pow (Nat.pow_lt_pow_right (by decide) hn)
  have hslots : (UInt64.ofNat (2 ^ n) / 8).toNat = 2 ^ n / 8 := by rw [UInt64.toNat_div, hword]; rfl
  split_ifs with hsmall
  · have hdiv : 2 ^ n / 8 = 0 := Nat.div_eq_of_lt (Nat.pow_lt_pow_right (by decide : 1 < 2) hsmall)
    rw [hdiv] at hslots
    rw [show UInt64.ofNat (2 ^ n) / 8 = 0 from UInt64.toNat_inj.1 hslots]
    rfl
  · have hdiv : 2 ^ n / 8 = 2 ^ (n - 3) := Nat.pow_div (Nat.le_of_not_lt hsmall) (by decide)
    have hpos := Nat.two_pow_pos (n - 3)
    have hlt : 2 ^ (n - 3) < 2 ^ 64 := Nat.pow_lt_pow_right (by decide) (by omega)
    rw [hdiv] at hslots
    rw [RingBuffer.maxCur, ← UInt64.toNat_inj,
      UInt64.toNat_sub_of_toNat_le (by rw [hslots]; exact hpos), hslots,
      UInt64.toNat_ofNat_of_lt_two_pow (by omega)]
    rfl

theorem toNat_maxCur {k : Nat} (hk : k < 64) : (RingBuffer.maxCur k).toNat + 1 = 2 ^ k := by
  have hpos := Nat.two_pow_pos k
  have hlt : 2 ^ k < 2 ^ 64 := Nat.pow_lt_pow_right (by decide) hk
  rw [RingBuffer.maxCur, UInt64.toNat_ofNat_of_lt_two_pow (by omega), Nat.sub_add_cancel hpos]

theorem touches_slot (maxCur : Usz) (item : Ptr) :
    (mpmcRingBufferPush maxCur item).Touches (.slot (0 &&& maxCur)) :=
  .afterRead 0 (.rmw _ _)

/-- The greatest power of two, with eight bytes for each slot. -/
theorem isGreatest_slots {n : Nat} (h : 8 ≤ n) :
    IsGreatest {s | (∃ k, s = 2 ^ k) ∧ 8 * s ≤ n} (2 ^ (n.log2 - 3)) := by
  have hne : n ≠ 0 := by omega
  have hlog : 3 ≤ n.log2 := (Nat.le_log2 hne).2 h
  have hsplit : ∀ k, 8 * 2 ^ k = 2 ^ (k + 3) := fun k => by rw [Nat.pow_add]; exact Nat.mul_comm _ _
  constructor
  · refine ⟨⟨_, rfl⟩, ?_⟩
    rw [hsplit, Nat.sub_add_cancel hlog]
    exact Nat.log2_self_le hne
  · rintro _ ⟨⟨k, rfl⟩, hk⟩
    rw [hsplit, ← Nat.le_log2 hne] at hk
    exact Nat.pow_le_pow_right (by decide) (by omega)

end

/-- The size of a ring is right for the sizes from 8 to 2^31 - 1 alone. Below 8 the mask is all
ones, and from 2^31 on the upper bits of the size are lost. -/
theorem initMPMCRingBuffer_fits_iff (ring : Ptr) (ringSize : Usz) (hring : ring ≠ 0) :
    RingFits ring ringSize ↔ 8 ≤ ringSize.toNat ∧ ringSize.toNat < 2 ^ 31 := by
  rw [RingFits, initMPMCRingBuffer_eq hring]
  constructor
  · rintro ⟨queue, hqueue, hslots, hnone⟩
    have hge : 8 ≤ ringSize.toNat := by
      by_contra hlt
      exact (hnone (Nat.lt_of_not_le hlt) 0 _).1 (touches_slot queue.maxCur 0)
    refine ⟨hge, Nat.lt_of_not_le fun hbig => ?_⟩
    obtain ⟨-, ⟨-, hfits⟩, hgreatest⟩ := hslots hge
    have hcapacity : 2 ^ 28 ≤ queue.maxCur.toNat + 1 := hgreatest ⟨⟨28, rfl⟩, hbig⟩
    split_ifs at hqueue with hundef
    rw [not_or, Nat.not_le] at hundef
    have hlog : (ringSize.toNat % 2 ^ 32).log2 < 31 := (Nat.log2_lt hundef.1).2 hundef.2
    have hmax : queue.maxCur = UInt64.ofNat (2 ^ (ringSize.toNat % 2 ^ 32).log2) / 8 - 1 :=
      (congrArg MpmcRingbuf.maxCur (Option.some.inj hqueue)).symm
    rw [maxCur_of_two_pow (by omega)] at hmax
    have hsize := ringSize.toNat_lt
    split_ifs at hmax with hsmall
    · -- all ones
      have hall : queue.maxCur.toNat = 2 ^ 64 - 1 := by rw [hmax]; rfl
      omega
    · have hpow : 2 ^ ((ringSize.toNat % 2 ^ 32).log2 - 3) ≤ 2 ^ 27 :=
        Nat.pow_le_pow_right (by decide) (by omega)
      rw [hmax, toNat_maxCur (by omega)] at hcapacity
      omega
  · rintro ⟨hge, hlt⟩
    have hlow : ringSize.toNat % 2 ^ 32 = ringSize.toNat := Nat.mod_eq_of_lt (by omega)
    have hlog : 3 ≤ ringSize.toNat.log2 := (Nat.le_log2 (by omega)).2 hge
    have hlog' : ringSize.toNat.log2 < 31 := (Nat.log2_lt (by omega)).2 hlt
    have hgreatest := isGreatest_slots hge
    rw [hlow, if_neg (by omega), maxCur_of_two_pow (by omega), if_neg (by omega)]
    refine ⟨_, rfl, fun _ => ⟨fun cur => ?_, ?_⟩, fun hsmall => absurd hge (Nat.not_le.2 hsmall)⟩
    · have hmod := Nat.mod_lt cur.toNat (Nat.two_pow_pos (ringSize.toNat.log2 - 3))
      have hfits := hgreatest.1.2
      show (cur &&& RingBuffer.maxCur _).toNat < _
      rw [RingBuffer.toNat_and_maxCur (by omega)]
      omega
    · show IsGreatest _ ((RingBuffer.maxCur _).toNat + 1)
      rw [toNat_maxCur (by omega)]
      exact hgreatest

theorem initMPMCRingBuffer_fits_hundred : RingFits 4096 100 :=
  (initMPMCRingBuffer_fits_iff 4096 100 (by decide)).2 (by decide)

/-- A ring of four bytes gets the mask of all ones, and so does one of 2^32 + 4; for 2^31 the shift
is undefined. -/
theorem initMPMCRingBuffer_not_fits :
    (initMPMCRingBuffer 4096 4).map MpmcRingbuf.maxCur = some uszMax ∧ ¬ RingFits 4096 4 ∧
    (initMPMCRingBuffer 4096 4294967300).map MpmcRingbuf.maxCur = some uszMax ∧
      ¬ RingFits 4096 4294967300 ∧
    initMPMCRingBuffer 4096 2147483648 = none := by
  refine ⟨by decide +kernel, fun h => ?_, by decide +kernel, fun h => ?_, by decide +kernel⟩
  · exact absurd ((initMPMCRingBuffer_fits_iff 4096 4 (by decide)).1 h).1 (by decide)
  · exact absurd ((initMPMCRingBuffer_fits_iff 4096 4294967300 (by decide)).1 h).2 (by decide)

end TinyBase
