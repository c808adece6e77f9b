import Mathlib.Data.Nat.Bitwise
import Mathlib.Tactic.IntervalCases
import TinyBase.Lib.Bits
import TinyBase.Lib.Wp

/-!
# Types and bit helpers (`tinybase-types.h`)

The x64 build: `usz` and pointers are 64 bits wide, `isz` is a two's complement 64-bit integer.
A computation that touches memory returns a `Res`: its value, or the `Fault` that stopped it.
-/

namespace TinyBase

/-- `usz`. -/
abbrev Usz := UInt64

/-- `isz`. -/
abbrev Isz := Int64

/-- An address. -/
abbrev Ptr := UInt64

/-- Why a computation stopped. -/
inductive Fault where
  /-- A byte outside the readable memory was read. -/
  | read (p : Ptr)
  /-- A byte outside the writable memory was written. -/
  | write (p : Ptr)
  /-- An access past the end of a local object. -/
  | bounds (i : Usz)
  /-- A loop did not end in `2 ^ 64` rounds. -/
  | rounds
deriving DecidableEq, Repr

abbrev Res (α : Type) := Except Fault α

/-- A `while` loop. All loops of the library count with 64-bit integers. -/
@[irreducible] def whileLoop {σ ρ : Type} (body : σ → Res (Ctl σ ρ)) (s : σ) : Res ρ :=
  iterate .rounds body (2 ^ 64) s

theorem wp_whileLoop {σ ρ : Type} {body : σ → Res (Ctl σ ρ)} (Inv : σ → Prop)
    (μ : σ → Nat) {Q : ρ → Prop}
    (hstep : ∀ s, Inv s → (body s).wp (Ctl.Post (fun s' => Inv s' ∧ μ s' < μ s) Q)) (s : σ)
    (hs : Inv s) (hμ : μ s < 2 ^ 64) : (whileLoop body s).wp Q := by
  rw [whileLoop]
  exact wp_iterate Inv μ hstep _ s hs hμ

theorem wp_whileLoop_of_bound {σ ρ : Type} {body : σ → Res (Ctl σ ρ)}
    (Inv : Nat → σ → Prop) {Q : ρ → Prop}
    (hstep : ∀ k s, Inv k s → (body s).wp (Ctl.Post (fun s' => ∃ k' < k, Inv k' s') Q))
    {k : Nat} {s : σ} (hs : Inv k s) (hk : k < 2 ^ 64) : (whileLoop body s).wp Q := by
  rw [whileLoop]
  exact wp_iterate_of_bound Inv hstep _ k s hs hk

theorem whileLoop_of_done {σ ρ : Type} {body : σ → Res (Ctl σ ρ)} {s : σ} {r : ρ}
    (h : body s = .ok (.done r)) : whileLoop body s = .ok r := by
  refine Except.wp_eq.1 (wp_whileLoop (· = s) (fun _ => 0) ?_ s rfl (by decide))
  rintro _ rfl
  rw [h]
  rfl

theorem whileLoop_of_error {σ ρ : Type} {body : σ → Res (Ctl σ ρ)} {s : σ}
    {e : Fault} (h : body s = .error e) : whileLoop body s = .error e := by
  have hrounds : 2 ^ 64 = (2 ^ 64 - 1) + 1 := rfl
  rw [whileLoop, hrounds, iterate, h]
  rfl

theorem whileLoop_of_iterate {σ ρ : Type} {body : σ → Res (Ctl σ ρ)} {s : σ} {r : ρ}
    (n : Nat) (hn : n ≤ 2 ^ 64) (h : iterate .rounds body n s = .ok r) :
    whileLoop body s = .ok r := by
  rw [whileLoop]
  exact iterate_ok_mono hn h

/-- The rule of partial correctness. -/
theorem of_whileLoop_ok {σ ρ : Type} {body : σ → Res (Ctl σ ρ)} (Inv : σ → Prop) {Q : ρ → Prop}
    (hstep : ∀ s c, Inv s → body s = .ok c → c.Post Inv Q) {s : σ} {r : ρ} (hs : Inv s)
    (h : whileLoop body s = .ok r) :
    Q r := by
  rw [whileLoop] at h
  exact of_iterate_ok Inv hstep _ s r hs h

theorem leaves_of_whileLoop {σ ρ : Type} {body : σ → Res (Ctl σ ρ)} {s : σ} {r : ρ}
    (h : whileLoop body s = .ok r) :
    Leaves body s r := by
  rw [whileLoop] at h
  exact .of_iterate h

/-- And the other way round, for a loop whose rounds decrease a measure. -/
theorem whileLoop_of_leaves {σ ρ : Type} {body : σ → Res (Ctl σ ρ)} (μ : σ → Nat)
    (hμ : ∀ s s', body s = .ok (.next s') → μ s' < μ s) {s : σ} {r : ρ}
    (h : Leaves body s r) (hs : μ s < 2 ^ 64) : whileLoop body s = .ok r := by
  refine Except.wp_eq.1 (wp_whileLoop (fun s => Leaves body s r) μ ?_ s h hs)
  intro s h
  obtain ⟨c, hc⟩ := h.body_ok
  rw [hc]
  cases c with
  | next s' => exact ⟨h.of_next hc, hμ s s' hc⟩
  | done r' => exact (h.of_done hc).symm

/-- A loop that is left has run its body without a fault in every state reached. -/
theorem whileLoop_ok_of_rounds {σ ρ : Type} {body : σ → Res (Ctl σ ρ)} {s s' : σ} {r : ρ}
    (h : whileLoop body s = .ok r) (hs : Rounds body s s') : ∃ c, body s' = .ok c := by
  rw [whileLoop] at h
  exact ok_of_rounds h hs

/-- `USZ_MAX`. -/
def uszMax : Usz := 0xFFFFFFFFFFFFFFFF

/-! ### Bit masks -/

/-- `GetFirstBitSet`: the index of the lowest set bit (`__builtin_ctz`), undefined for `0`. -/
def getFirstBitSet (mask : UInt32) : UInt32 :=
  UInt32.ofNat (((List.range 32).find? fun i => mask.toNat.testBit i).getD 0)

/-- The table of `FlipBit`. -/
def patterns : List UInt32 := [
  0xFFFFFFFE, 0xFFFFFFFD, 0xFFFFFFFB, 0xFFFFFFF7,
  0xFFFFFFEF, 0xFFFFFFDF, 0xFFFFFFBF, 0xFFFFFF7F,
  0xFFFFFEFF, 0xFFFFFDFF, 0xFFFFFBFF, 0xFFFFF7FF,
  0xFFFFEFFF, 0xFFFFDFFF, 0xFFFFBFFF, 0xFFFF7FFF,
  0xFFFEFFFF, 0xFFFDFFFF, 0xFFFBFFFF, 0xFFF7FFFF,
  0xFFEFFFFF, 0xFFDFFFFF, 0xFFBFFFFF, 0xFF7FFFFF,
  0xFEFFFFFF, 0xFDFFFFFF, 0xFBFFFFFF, 0xF7FFFFFF,
  0xEFFFFFFF, 0xDFFFFFFF, 0xBFFFFFFF, 0x7FFFFFFF]

def flipBit (number bitIdx : UInt32) : UInt32 :=
  number &&& patterns.getD bitIdx.toNat 0

def clearBit (value bit : UInt32) : UInt32 :=
  value &&& ~~~((1 : UInt32) <<< bit)

theorem exists_testBit_of_ne_zero {mask : UInt32} (h : mask ≠ 0) :
    ∃ i < 32, mask.toNat.testBit i := by
  obtain ⟨i, hi⟩ := Nat.exists_testBit_of_ne_zero (x := mask.toNat)
    (fun h0 => h (UInt32.toNat_inj.1 (by simpa using h0)))
  refine ⟨i, ?_, hi⟩
  by_contra hge
  have hlt : mask.toNat < 2 ^ i :=
    Nat.lt_of_lt_of_le mask.toNat_lt (Nat.pow_le_pow_right (by decide) (Nat.le_of_not_lt hge))
  rw [Nat.testBit_lt_two_pow hlt] at hi
  exact absurd hi (by decide)

/-- `GetFirstBitSet` returns the lowest set bit. -/
theorem getFirstBitSet_spec {mask : UInt32} (h : mask ≠ 0) :
    (getFirstBitSet mask).toNat < 32 ∧ mask.toNat.testBit (getFirstBitSet mask).toNat ∧
      ∀ j < (getFirstBitSet mask).toNat, ¬ mask.toNat.testBit j := by
  obtain ⟨i, hi, hbit⟩ := exists_testBit_of_ne_zero h
  have hsome : ((List.range 32).find? fun i => mask.toNat.testBit i).isSome :=
    List.find?_isSome.2 ⟨i, List.mem_range.2 hi, hbit⟩
  obtain ⟨k, hk⟩ := Option.isSome_iff_exists.1 hsome
  obtain ⟨hkbit, hk32, hlow⟩ := List.find?_range_eq_some.1 hk
  have hk32 : k < 32 := List.mem_range.1 hk32
  have hval : (getFirstBitSet mask).toNat = k := by
    rw [getFirstBitSet, hk, Option.getD_some,
      UInt32.toNat_ofNat_of_lt' (Nat.lt_of_lt_of_le hk32 (by decide))]
  rw [hval]
  exact ⟨hk32, hkbit, fun j hj => by simpa using hlow j hj⟩

theorem testBit_not_shift {i j : Nat} (hi : i < 32) (hj : j < 32) :
    (~~~((1 : UInt32) <<< UInt32.ofNat i)).toNat.testBit j = decide (j ≠ i) := by
  have h1 : ((1 : UInt32) <<< UInt32.ofNat i).toNat = 2 ^ i := by
    rw [UInt32.toNat_shiftLeft, UInt32.toNat_ofNat_of_lt' (Nat.lt_of_lt_of_le hi (by decide)),
      Nat.mod_eq_of_lt hi,
      show (1 : UInt32).toNat = 1 from rfl, Nat.one_shiftLeft,
      Nat.mod_eq_of_lt (Nat.pow_lt_pow_right (by decide) hi)]
  rw [UInt32.toNat_not, h1, show UInt32.size - 1 - 2 ^ i = 2 ^ 32 - (2 ^ i + 1) from by
      rw [UInt32.size]; omega,
    Nat.testBit_two_pow_sub_succ (Nat.pow_lt_pow_right (by decide) hi), Nat.testBit_two_pow]
  simp [hj, eq_comm]

theorem patterns_getD {i : Nat} (hi : i < 32) :
    patterns.getD i 0 = ~~~((1 : UInt32) <<< UInt32.ofNat i) := by
  interval_cases i <;> rfl

theorem testBit_flipBit (mask : UInt32) {bit : UInt32} (hb : bit.toNat < 32) {j : Nat}
    (hj : j < 32) :
    (flipBit mask bit).toNat.testBit j = (mask.toNat.testBit j && decide (j ≠ bit.toNat)) := by
  rw [flipBit, patterns_getD hb, UInt32.toNat_and, Nat.testBit_and, testBit_not_shift hb hj]

theorem clearBit_eq_flipBit (mask : UInt32) {bit : UInt32} (hb : bit.toNat < 32) :
    clearBit mask bit = flipBit mask bit := by
  rw [clearBit, flipBit, patterns_getD hb, UInt32.ofNat_toNat]

theorem flipBit_lt (mask : UInt32) {bit : UInt32} (hb : bit.toNat < 32)
    (hset : mask.toNat.testBit bit.toNat) : (flipBit mask bit).toNat < mask.toNat := by
  refine Nat.lt_of_le_of_ne (by rw [flipBit, UInt32.toNat_and]; exact Nat.and_le_left) fun heq => ?_
  have := testBit_flipBit mask hb hb
  rw [heq, hset] at this
  simp at this

end TinyBase
