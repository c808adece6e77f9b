import Mathlib.Algebra.Group.Nat.Defs
import Mathlib.Data.Nat.Log

/-!
# Decimal digits in a given number of places

The numeral of a number is `Nat.toDigits 10` of the core library, and `Nat.ofDigitChars 10` reads
it. `lowDigits k n` are the digits that a loop writes which takes `k` of them off `n`, the last one
first.
-/

namespace Decimal

/-- The `k` low digits of `n`. -/
def lowDigits : Nat → Nat → List Char
  | 0, _ => []
  | k + 1, n => lowDigits k (n / 10) ++ [Nat.digitChar (n % 10)]

theorem toNat_digitChar {d : Nat} (hd : d < 10) : (Nat.digitChar d).toNat = d + 48 := by
  rw [Nat.toNat_digitChar_of_lt_ten hd, Nat.add_comm]

theorem isDigit_digitChar {d : Nat} (hd : d < 10) : (Nat.digitChar d).isDigit := by
  simpa using hd

@[simp] theorem length_lowDigits (k n : Nat) : (lowDigits k n).length = k := by
  induction k generalizing n with
  | zero => rfl
  | succ k ih => simp [lowDigits, ih]

theorem isDigit_of_mem_lowDigits {k n : Nat} {c : Char} (hc : c ∈ lowDigits k n) : c.isDigit := by
  induction k generalizing n with
  | zero => exact absurd hc List.not_mem_nil
  | succ k ih =>
    rcases List.mem_append.1 hc with hc | hc
    · exact ih hc
    · rw [List.mem_singleton.1 hc]
      exact isDigit_digitChar (Nat.mod_lt _ (by decide))

theorem ofDigitChars_lowDigits (k n : Nat) :
    Nat.ofDigitChars 10 (lowDigits k n) 0 = n % 10 ^ k := by
  induction k generalizing n with
  | zero => simp [lowDigits, Nat.mod_one]
  | succ k ih =>
    rw [lowDigits, Nat.ofDigitChars_append, ih,
      Nat.ofDigitChars_cons_digitChar_of_lt_ten (Nat.mod_lt _ (by decide)),
      Nat.ofDigitChars_nil, Nat.pow_succ', Nat.mod_mul, Nat.add_comm]

/-- A reader that takes in one digit as decimal notation does reads a numeral. The state may also
count the digits. -/
theorem foldlM_digits {σ : Type} {step : σ → Char → Option σ}
    {cs : List Char} (state : Nat → Nat → σ)
    (hstep : ∀ a k c, Char.isDigit c →
      step (state a k) c = some (state (10 * a + (c.toNat - '0'.toNat)) (k + 1)))
    (hcs : ∀ c ∈ cs, c.isDigit) (a k : Nat) :
    cs.foldlM step (state a k) = some (state (Nat.ofDigitChars 10 cs a) (k + cs.length)) := by
  induction cs generalizing a k with
  | nil => rfl
  | cons c cs ih =>
    rw [List.foldlM_cons, hstep a k c (hcs c List.mem_cons_self),
      Nat.ofDigitChars_cons, List.length_cons, Nat.add_comm cs.length, ← Nat.add_assoc]
    exact ih (fun d hd => hcs d (List.mem_cons_of_mem c hd)) _ _

/-- A number has as many digits as its logarithm says. -/
theorem length_toDigits (n : Nat) : (Nat.toDigits 10 n).length = Nat.log 10 n + 1 := by
  refine Nat.le_antisymm ?_ (Nat.succ_le_of_lt (Nat.lt_of_not_le fun hle => ?_))
  · rw [Nat.length_toDigits_le_iff (by decide) (Nat.succ_pos _)]
    exact Nat.lt_pow_succ_log_self (by decide) n
  · have hpos := Nat.length_toDigits_pos (b := 10) (n := n)
    have hlog : 0 < Nat.log 10 n := Nat.lt_of_lt_of_le hpos hle
    rw [Nat.length_toDigits_le_iff (by decide) hlog] at hle
    have hne : n ≠ 0 := by rintro rfl; simp at hlog
    exact absurd (Nat.pow_log_le_self 10 hne) (Nat.not_le.2 hle)

/-- Its low digits, in as many places as it has, are its numeral. -/
theorem lowDigits_length_toDigits (n : Nat) :
    lowDigits (Nat.toDigits 10 n).length n = Nat.toDigits 10 n := by
  induction n using Nat.strongRecOn with
  | ind n ih =>
    rw [Nat.toDigits_eq_if (by decide)]
    split_ifs with h
    · simp [lowDigits, Nat.mod_eq_of_lt h]
    · rw [List.length_append, List.length_singleton, lowDigits, ih (n / 10) (by omega)]

end Decimal
