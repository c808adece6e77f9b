import Mathlib.Tactic.FieldSimp
import TinyBase.FloatRoundTrip

/-!
# The scaling of the scientific layout

With exact arithmetic both loops end for every finite float but zero, and the number they leave is
the one they began with, times or divided by a power of ten. The loop that divides stops at ten, and
not below it.
-/

namespace TinyBase

/-- The finite `f64` numbers. -/
def IsFiniteFloat (q : ℚ) : Prop := ∃ n e : ℤ, |n| < 2 ^ 53 ∧ -1074 ≤ e ∧ e ≤ 971 ∧ q = n * 2 ^ e

/-- The scaling ends with a digit in front of the dot; a number other than zero is then in `[1,
10)`, and the exponent says how it got there. -/
def Normalises (q : ℚ) : Prop :=
  ∃ y exp expSign, scaled ratOps q = .ok (y, exp, expSign) ∧
    (48 ≤ ratOps.toChar y + 48 ∧ ratOps.toChar y + 48 ≤ 57) ∧
    (q ≠ 0 → (1 ≤ y ∧ y < 10) ∧ y = |q| / 10 ^ (expSign.toInt * exp.toNat))

/-- `x` and its inverse are at most `2 ^ k`. -/
structure Within (k : Nat) (x : ℚ) : Prop where
  low : 1 ≤ x * 2 ^ k
  high : x < 2 ^ k

theorem within_mul_zpow {n e : ℤ} {k : Nat} (hn : n ≠ 0) (hn53 : |n| < 2 ^ 53)
    (hlo : -(k : ℤ) ≤ e) (hhi : e + 53 ≤ k) : Within k |(n * 2 ^ e : ℚ)| := by
  have htwo : (1 : ℚ) ≤ 2 := by norm_num
  have hne : (2 : ℚ) ≠ 0 := by norm_num
  have hone : (1 : ℚ) ≤ |(n : ℚ)| := by exact_mod_cast Int.one_le_abs hn
  have hlt : |(n : ℚ)| < 2 ^ 53 := by exact_mod_cast hn53
  have hpow : (0 : ℚ) < 2 ^ e := zpow_pos (by norm_num) e
  rw [abs_mul, abs_of_pos hpow]
  constructor
  · calc (1 : ℚ) ≤ 2 ^ (e + k) := one_le_zpow₀ htwo (by omega)
      _ = 1 * (2 ^ e * 2 ^ k) := by rw [one_mul, zpow_add₀ hne, zpow_natCast]
      _ ≤ |(n : ℚ)| * (2 ^ e * 2 ^ k) := by gcongr
      _ = |(n : ℚ)| * 2 ^ e * 2 ^ k := (mul_assoc ..).symm
  · calc |(n : ℚ)| * 2 ^ e < 2 ^ 53 * 2 ^ e := by gcongr
      _ = 2 ^ (53 + e) := by rw [zpow_add₀ hne]; rfl
      _ ≤ 2 ^ (k : ℤ) := zpow_le_zpow_right₀ htwo (by omega)
      _ = 2 ^ k := zpow_natCast ..

theorem IsFiniteFloat.within {q : ℚ} (h : IsFiniteFloat q) (hq : q ≠ 0) :
    ∃ k < 2 ^ 63, Within k |q| := by
  obtain ⟨n, e, hn, hlo, hhi, rfl⟩ := h
  have hn0 : n ≠ 0 := by rintro rfl; simp at hq
  exact ⟨1074, by norm_num, within_mul_zpow hn0 hn hlo (by omega)⟩

section
variable {k : Nat} {x y q : ℚ} {exp : Usz}

theorem ratOps_lt {a b : ℚ} : ratOps.lt a b ↔ a < b := decide_eq_true_iff

theorem abs_eq_start :
    (if ratOps.lt q (ratOps.ofInt 0) then ratOps.mul q (ratOps.ofInt (-1)) else q) = |q| := by
  simp only [ratOps_lt]
  split_ifs with h
  · have hneg : q < 0 := by simpa [ratOps] using h
    rw [abs_of_neg hneg]
    simp [ratOps]
  · have hpos : ¬ q < 0 := by simpa [ratOps] using h
    exact (abs_of_nonneg (not_lt.1 hpos)).symm

/-- `n` is below the number of rounds. -/
theorem lt_of_pow_lt {n k : Nat} (h : (10 : ℚ) ^ n < 2 ^ k) : n < k := by
  have hle : (2 : ℚ) ^ n ≤ 10 ^ n := by gcongr; norm_num
  exact (pow_lt_pow_iff_right₀ (by norm_num : (1 : ℚ) < 2)).1 (lt_of_le_of_lt hle h)

theorem scaleUp_spec (hk : k < 2 ^ 63) (hwithin : Within k x) (hx : x < 1) :
    (scaleUp ratOps x).wp fun res => res.1 = x * 10 ^ res.2.toNat ∧ 1 ≤ res.1 ∧ res.1 < 10 := by
  have hten : x < 10 := by linarith
  have hlow := hwithin.low
  refine wp_whileLoop (fun st => st.1 = x * 10 ^ st.2.toNat ∧ st.1 < 10 ∧ st.2.toNat ≤ k)
    (fun st => k - st.2.toNat) ?_ (x, 0) ⟨by simp, hten, Nat.zero_le k⟩ (by dsimp only; omega)
  rintro ⟨y, exp⟩ ⟨hy, hlt, hexp⟩
  dsimp only at hy hlt hexp ⊢
  simp only [ratOps_lt]
  split_ifs with h
  · have hone : y < 1 := by simpa [ratOps] using h
    have hround : exp.toNat < k := by
      apply lt_of_pow_lt
      have hpos : (0 : ℚ) < 10 ^ exp.toNat := by positivity
      calc (10 : ℚ) ^ exp.toNat ≤ x * 2 ^ k * 10 ^ exp.toNat := le_mul_of_one_le_left hpos.le hlow
        _ = y * 2 ^ k := by rw [hy, mul_right_comm]
        _ < 2 ^ k := mul_lt_of_lt_one_left (by positivity) hone
    have hnext : (exp + 1).toNat = exp.toNat + 1 := UInt64.toNat_add_one (by omega)
    have hmul : ratOps.mul y (ratOps.ofInt 10) = y * 10 := rfl
    refine ⟨⟨?_, ?_, ?_⟩, ?_⟩
    · rw [hmul, hnext, hy, pow_succ, mul_assoc]
    · rw [hmul]; linarith
    · rw [hnext]; exact hround
    · dsimp only; rw [hnext]; omega
  · have hone : ¬ y < 1 := by simpa [ratOps] using h
    exact ⟨hy, not_lt.1 hone, hlt⟩

theorem scaleDown_spec (hk : k < 2 ^ 63) (hwithin : Within k x) (hx : 1 ≤ x) :
    (scaleDown ratOps x).wp fun res =>
    res.1 * 10 ^ res.2.toNat = x ∧ 1 ≤ res.1 ∧ res.1 ≤ 10 ∧ (res.2.toNat = 0 ∨ 1 < res.1) := by
  have hhigh := hwithin.high
  refine wp_whileLoop (fun st => st.1 * 10 ^ st.2.toNat = x ∧ 1 ≤ st.1 ∧
    (st.2.toNat = 0 ∨ 1 < st.1) ∧ st.2.toNat ≤ k)
    (fun st => k - st.2.toNat) ?_ (x, 0)
      ⟨by simp, hx, .inl rfl, Nat.zero_le k⟩ (by dsimp only; omega)
  rintro ⟨y, exp⟩ ⟨hy, hge, hone, hexp⟩
  dsimp only at hy hge hone hexp ⊢
  simp only [ratOps_lt]
  split_ifs with h
  · have hten : 10 < y := by simpa [ratOps] using h
    have hround : exp.toNat < k := by
      apply lt_of_pow_lt
      have hpos : (0 : ℚ) < 10 ^ exp.toNat := by positivity
      calc (10 : ℚ) ^ exp.toNat ≤ y * 10 ^ exp.toNat := le_mul_of_one_le_left hpos.le hge
        _ = x := hy
        _ < 2 ^ k := hhigh
    have hnext : (exp + 1).toNat = exp.toNat + 1 := UInt64.toNat_add_one (by omega)
    have hdiv : ratOps.div y (ratOps.ofInt 10) = y / 10 := rfl
    refine ⟨⟨?_, ?_, .inr ?_, ?_⟩, ?_⟩
    · rw [hdiv, hnext, pow_succ', ← mul_assoc, div_mul_cancel₀ _ (by norm_num), hy]
    · rw [hdiv]; linarith
    · rw [hdiv]; linarith
    · rw [hnext]; exact hround
    · dsimp only; rw [hnext]; omega
  · have hten : ¬ 10 < y := by simpa [ratOps] using h
    exact ⟨hy, hge, not_lt.1 hten, hone⟩

/-- Zero stays below one. -/
theorem scaled_zero_ne_ok (res : ℚ × Usz × Isz) : scaled ratOps 0 ≠ .ok res := by
  intro h
  have hone : ratOps.lt 0 (ratOps.ofInt 1) := by decide +kernel
  have hzero : ratOps.mul 0 (ratOps.ofInt 10) = 0 := by decide +kernel
  rw [scaled, abs_eq_start, abs_zero] at h
  dsimp only at h
  rw [if_pos hone, Except.bind_eq_ok] at h
  obtain ⟨res', hup, -⟩ := h
  refine of_whileLoop_ok (Q := fun _ => False) (fun st : ℚ × Usz => st.1 = 0) ?_ rfl hup
  rintro ⟨y, exp⟩ c hy hc
  dsimp only at hy hc
  rw [hy, if_pos hone, hzero] at hc
  cases hc
  rfl

theorem toChar_eq_floor (hlo : 1 ≤ y) (hhi : y ≤ 10) : (ratOps.toChar y).toNat = ⌊y⌋.toNat := by
  have hpos : (0 : ℚ) ≤ y := by linarith
  have hfloor : 0 ≤ ⌊y⌋ := Int.floor_nonneg.2 hpos
  have hten : ⌊y⌋ ≤ 10 := by
    have := Int.floor_le_floor hhi
    simpa using this
  show (UInt8.ofInt (ratTrunc y)).toNat = _
  rw [ratTrunc, if_pos hpos]
  generalize ⌊y⌋ = k at hfloor hten
  interval_cases k <;> rfl

theorem toChar_digit (hlo : 1 ≤ y) (hhi : y < 10) :
    48 ≤ ratOps.toChar y + 48 ∧ ratOps.toChar y + 48 ≤ 57 := by
  have hchar := toChar_eq_floor hlo hhi.le
  have hten : ⌊y⌋ < 10 := Int.floor_lt.2 (by exact_mod_cast hhi)
  rw [UInt8.le_iff_toNat_le, UInt8.le_iff_toNat_le, UInt8.toNat_add, hchar]
  simp only [UInt8.reduceToNat]
  omega

theorem normalises_small (hk : k < 2 ^ 63) (hwithin : Within k |q|) (hlt : |q| < 1) :
    Normalises q := by
  obtain ⟨⟨y, exp⟩, hup, hy, hlo, hhi⟩ := Except.wp_iff.1 (scaleUp_spec hk hwithin hlt)
  have hone : ratOps.lt |q| (ratOps.ofInt 1) := ratOps_lt.2 (by simpa [ratOps] using hlt)
  refine ⟨y, exp, -1, ?_, toChar_digit hlo hhi, fun _ => ⟨⟨hlo, hhi⟩, ?_⟩⟩
  · rw [scaled, abs_eq_start]
    dsimp only
    rw [if_pos hone, hup]
    rfl
  · dsimp only at hy
    rw [hy, show ((-1 : Isz).toInt * (exp.toNat : ℤ)) = -(exp.toNat : ℤ) by simp, zpow_neg,
      zpow_natCast, div_inv_eq_mul]

/-- From one on, the scaled number can be ten. -/
theorem scaled_large (hk : k < 2 ^ 63) (hwithin : Within k |q|) (hge : 1 ≤ |q|) :
    ∃ y exp, scaled ratOps q = .ok (y, exp, 1) ∧
    y * 10 ^ exp.toNat = |q| ∧ 1 ≤ y ∧ y ≤ 10 ∧ (exp.toNat = 0 ∨ 1 < y) := by
  obtain ⟨⟨y, exp⟩, hdown, hy⟩ := Except.wp_iff.1 (scaleDown_spec hk hwithin hge)
  have hone : ¬ ratOps.lt |q| (ratOps.ofInt 1) :=
    fun h => absurd (ratOps_lt.1 h) (by simpa [ratOps] using hge)
  refine ⟨y, exp, ?_, hy⟩
  rw [scaled, abs_eq_start]
  dsimp only
  rw [if_neg hone, hdown]
  rfl

/-- Only one power of ten is in `[1, 10)`. -/
theorem pow_eq_of_scaled {k n : Nat} (hy : y * 10 ^ n = 10 ^ k) (hlo : 1 ≤ y) (hhi : y < 10) :
    k = n := by
  have hpos : (0 : ℚ) < 10 ^ n := by positivity
  have hten : (1 : ℚ) < 10 := by norm_num
  apply Nat.le_antisymm
  · by_contra hlt
    have hle : (10 : ℚ) ^ (n + 1) ≤ 10 ^ k := pow_le_pow_right₀ hten.le (Nat.lt_of_not_le hlt)
    rw [← hy, pow_succ'] at hle
    nlinarith
  · by_contra hlt
    have hle : (10 : ℚ) ^ k < 10 ^ n := pow_lt_pow_right₀ hten (Nat.lt_of_not_le hlt)
    rw [← hy] at hle
    nlinarith

theorem normalises_large_iff (hk : k < 2 ^ 63) (hwithin : Within k |q|) (hge : 1 ≤ |q|) :
    Normalises q ↔ ∀ k, 1 ≤ k → |q| ≠ 10 ^ k := by
  have hq : q ≠ 0 := by rintro rfl; norm_num at hge
  obtain ⟨y, exp, hscaled, hy, hlo, hhi, hone⟩ := scaled_large hk hwithin hge
  constructor
  · rintro ⟨y', exp', expSign, hscaled', -, hnorm⟩ k hk hpow
    rw [hscaled] at hscaled'
    cases hscaled'
    obtain ⟨⟨-, hlt⟩, -⟩ := hnorm hq
    rw [hpow] at hy
    obtain rfl := pow_eq_of_scaled hy hlo hlt
    -- it would have to be one, and a round leaves more than that
    have hpos : (0 : ℚ) < 10 ^ exp.toNat := by positivity
    have hy1 : y = 1 := mul_right_cancel₀ hpos.ne' (hy.trans (one_mul _).symm)
    rcases hone with hone | hone
    · omega
    · linarith
  · intro hpow
    have hlt : y < 10 := by
      refine lt_of_le_of_ne hhi fun hten => hpow (exp.toNat + 1) (Nat.le_add_left 1 _) ?_
      rw [← hy, hten, pow_succ']
    refine ⟨y, exp, 1, hscaled, toChar_digit hlo hlt, fun _ => ⟨⟨hlo, hlt⟩, ?_⟩⟩
    rw [← hy, show ((1 : Isz).toInt * (exp.toNat : ℤ)) = (exp.toNat : ℤ) by simp, zpow_natCast]
    field_simp

end

/-- A finite float is normalised unless it is zero or a power of ten from ten on, or minus one. -/
theorem normalises_iff (q : ℚ) (hfin : IsFiniteFloat q) :
    Normalises q ↔ q ≠ 0 ∧ ∀ k, 1 ≤ k → |q| ≠ 10 ^ k := by
  rcases eq_or_ne q 0 with rfl | hq
  · refine iff_of_false ?_ fun h => h.1 rfl
    rintro ⟨y, exp, expSign, hscaled, -⟩
    exact scaled_zero_ne_ok _ hscaled
  · obtain ⟨k, hk, hwithin⟩ := hfin.within hq
    rcases lt_or_ge |q| 1 with hlt | hge
    · refine iff_of_true (normalises_small hk hwithin hlt) ⟨hq, fun k _ hpow => ?_⟩
      have hone : (1 : ℚ) ≤ 10 ^ k := one_le_pow₀ (by norm_num)
      linarith
    · rw [normalises_large_iff hk hwithin hge]
      exact (and_iff_right hq).symm

theorem normalises_iff_seven : Normalises (-7 / 4) :=
  (normalises_iff (-7 / 4) ⟨-7, -2, by norm_num, by norm_num, by norm_num, by norm_num⟩).2
    ⟨by norm_num, fun k _ h => by
      have hten : (10 : ℚ) ≤ 10 ^ k := le_self_pow₀ (by norm_num) (by omega)
      rw [← h] at hten
      norm_num [abs_of_neg] at hten⟩

/-- The text of ten begins with a colon, and that of zero is never written. -/
theorem normalises_not_ten : (scaled ratOps 10 = .ok (10, 0, 1) ∧ ratOps.toChar 10 + 48 = 58) ∧
    (IsFiniteFloat 10 ∧ ¬ Normalises 10) ∧ IsFiniteFloat 0 ∧ ¬ Normalises 0 := by
  have hdown : scaleDown ratOps 10 = .ok (10, 0) :=
    whileLoop_of_iterate 1 (by decide) (by decide +kernel)
  have hpos : ¬ ratOps.lt 10 (ratOps.ofInt 0) := by decide +kernel
  have hone : ¬ ratOps.lt 10 (ratOps.ofInt 1) := by decide +kernel
  have hscaled : scaled ratOps 10 = .ok (10, 0, 1) := by
    rw [scaled, if_neg hpos, if_neg hone, hdown]
    rfl
  refine ⟨⟨hscaled, by decide +kernel⟩,
    ⟨⟨10, 0, by norm_num, by norm_num, by norm_num, by norm_num⟩, ?_⟩,
    ⟨0, 0, by norm_num, by norm_num, by norm_num, by norm_num⟩, ?_⟩
  · rintro ⟨y, exp, expSign, h, hdigit, -⟩
    rw [hscaled] at h
    cases h
    exact absurd hdigit.2 (by decide +kernel)
  · rintro ⟨y, exp, expSign, h, -⟩
    exact scaled_zero_ne_ok _ h

end TinyBase
