import Mathlib.Data.Rat.Floor
import Mathlib.Tactic.Linarith
import TinyBase.FloatText

/-!
# Reading a float back

What the reader makes of the two layouts. The regular one comes back if the integer part has an
absolute value and the digits in front of the dot leave the right room for those behind it; the
scientific one only if its exponent has a minus sign.
-/

namespace TinyBase
open Decimal

/-- A number as the reader has it before it computes with it. -/
structure FloatNumber where
  sign : Isz
  integer : Nat
  fraction : Nat
  fractionCount : Nat
  exponentSign : Isz
  exponent : Nat
deriving DecidableEq

/-- The variables of the reader have the digits and the exponent of `n`. -/
structure FloatState.Has (s : FloatState) (n : FloatNumber) : Prop where
  integer_eq : s.integer.toNat = n.integer
  fraction_eq : s.fraction.toNat = n.fraction
  fractionCount_eq : s.fractionCount.toNat = n.fractionCount
  exponentSign_eq : s.exponentSign = n.exponentSign
  exponent_eq : s.exponent.toNat = n.exponent

/-- `StringToFloat` accepts what has been appended to `dst`, and reads `n` from it. -/
def ReadsBack (dst dst' : String) (m' : Mem) (n : FloatNumber) : Prop :=
  ∃ s : FloatState, readFloat (appendedPart dst (dst'.writeCur - dst.writeCur).toNat) m' =
    .ok (some (n.sign, s)) ∧ s.Has n

theorem readsBack_iff {dst dst' : String} {m' : Mem} {n : FloatNumber} {o : Option FloatState}
    (h : readFloat (appendedPart dst (dst'.writeCur - dst.writeCur).toNat) m' =
      .ok (o.map fun s => (n.sign, s))) :
    ReadsBack dst dst' m' n ↔ ∃ s, o = some s ∧ s.Has n := by
  rw [ReadsBack, h]
  cases o with
  | none => simp
  | some s => simp

section
variable {φ : Type} (F : FloatOps φ) (float : φ) (decimalPlaces : Usz)

/-- The sign and the digits that `_AppendFloatToStringRegular` writes. -/
def regularNumber : FloatNumber where
  sign := if F.lt float (F.ofInt 0) then -1 else 1
  integer := (floatHi F float).toInt.natAbs
  fraction := (floatDecimal F float (regularPlaces F float decimalPlaces)).toNat %
    10 ^ (regularPlaces F float decimalPlaces).toNat
  fractionCount := (regularPlaces F float decimalPlaces).toNat
  exponentSign := 1
  exponent := 0

/-- The sign, the digits and the exponent that `_AppendFloatToStringInSN` writes for the scaled
number `y`. -/
def snNumber (y : φ) (exp : Usz) (expSign : Isz) : FloatNumber where
  sign := if F.lt float (F.ofInt 0) then -1 else 1
  integer := (F.toChar y).toNat
  fraction := if decimalPlaces > 0 then (scaledDecimal F y decimalPlaces).toNat % 10 ^
    decimalPlaces.toNat else 0
  fractionCount := if decimalPlaces > 0 then decimalPlaces.toNat else 1
  exponentSign := expSign
  exponent := exp.toNat % 1000

/-- The number has an absolute value, and there are no decimal places, or some are left after the
digits in front of the dot. -/
def RegularReadable : Prop :=
  F.toIsz float ≠ Int64.minValue ∧
    (decimalPlaces = 0 ∨ digitCount (floatHi F float) + (F.minus float).toNat ≠ 19)

/-- The exponent has a minus sign, the digit in front of the dot is one, and the last digit of the
exponent is not missed. -/
def SNReadable (y : φ) (exp : Usz) (expSign : Isz) : Prop :=
  expSign = -1 ∧ F.toChar y < 10 ∧ (decimalPlaces ≠ 0 ∨ exp.toNat % 1000 = 0)

end

/-! ### The characters are ASCII -/

theorem laidDigits_lt {ι : Type} {lastDigit : ι → UInt8} {rest : ι → ι}
    (hlast : ∀ n, (lastDigit n).toNat < 128) {k : Nat} {n : ι} :
    ∀ b ∈ laidDigits lastDigit rest k n, b.toNat < 128 := by
  induction k generalizing n with
  | zero => exact fun b hb => absurd hb List.not_mem_nil
  | succ k ih =>
    intro b hb
    rcases List.mem_append.1 hb with hb | hb
    · exact ih b hb
    · rw [List.mem_singleton.1 hb]
      exact hlast n

theorem uszDigit_lt (n : Usz) : (uszDigit n).toNat < 128 := by
  have hmod : n.toNat % 10 < 10 := Nat.mod_lt _ (by decide)
  rw [uszDigit, uintLast_eq, toNat_charByte (by rw [toNat_digitChar hmod]; omega),
    toNat_digitChar hmod]
  omega

theorem iszDigit_lt (n : Isz) : (iszDigit n).toNat < 128 := by
  have hmod : (n % 10).toInt = n.toInt.tmod 10 := Int64.toInt_mod ..
  have hlo : -10 < n.toInt.tmod 10 := Int.lt_tmod_of_pos _ (by decide)
  have hhi : n.toInt.tmod 10 < 10 := Int.tmod_lt_of_pos _ (by decide)
  obtain ⟨d, hd⟩ : ∃ d : Int, d = n.toInt.tmod 10 := ⟨_, rfl⟩
  rw [← hd] at hmod hlo hhi
  have hn : n % 10 = Int64.ofInt d := by rw [← hmod, Int64.ofInt_toInt]
  rw [iszDigit, hn]
  interval_cases d <;> decide

section
variable {φ : Type} {F : FloatOps φ} {float : φ} {decimalPlaces : Usz}

theorem minus_lt {b : Bool} : ∀ c ∈ (if b then [(45 : UInt8)] else []), c.toNat < 128 := by
  cases b <;> simp

theorem regularText_lt : ∀ b ∈ regularText F float decimalPlaces, b.toNat < 128 := by
  intro b hb
  rw [regularText, List.mem_append, List.mem_append] at hb
  rcases hb with hb | hb | hb
  · exact minus_lt b hb
  · exact laidDigits_lt iszDigit_lt b hb
  · rw [regularTail] at hb
    split_ifs at hb
    · rcases List.mem_cons.1 hb with rfl | hb
      · decide
      · exact laidDigits_lt uszDigit_lt b hb
    · rw [List.mem_singleton.1 hb]
      decide
    · exact absurd hb List.not_mem_nil

/-! ### The regular layout -/

theorem regularPlaces_pos_iff : regularPlaces F float decimalPlaces > 0 ↔
    decimalPlaces ≠ 0 ∧ digitCount (floatHi F float) + (F.minus float).toNat ≠ 19 := by
  obtain ⟨hpos, hcount⟩ := digitCount_le (floatHi F float)
  have hminus := toNat_minus_le F float
  have hleft : 20 - UInt64.ofNat (digitCount (floatHi F float)) - F.minus float - 1 = 0 ↔
      digitCount (floatHi F float) + (F.minus float).toNat = 19 := by
    have hsum : (UInt64.ofNat (digitCount (floatHi F float)) + F.minus float).toNat =
        digitCount (floatHi F float) + (F.minus float).toNat := by
      rw [UInt64.toNat_add, UInt64.toNat_ofNat']
      omega
    rw [← hsum]
    constructor
    · intro h
      rw [show UInt64.ofNat (digitCount (floatHi F float)) + F.minus float = 19 by grind]
      rfl
    · intro h
      have h19 : UInt64.ofNat (digitCount (floatHi F float)) + F.minus float = 19 :=
        UInt64.toNat_inj.1 h
      grind
  rw [regularPlaces, clippedPlaces]
  simp only [gt_iff_lt, UInt64.pos_iff_ne_zero]
  have hne : 20 - UInt64.ofNat (digitCount (floatHi F float)) - F.minus float - 1 ≠ 0 ↔
      digitCount (floatHi F float) + (F.minus float).toNat ≠ 19 := not_congr hleft
  rw [← hne]
  split_ifs with hdec hclip
  · exact ⟨fun h => ⟨hdec, h⟩, fun h => h.2⟩
  · refine ⟨fun _ => ⟨hdec, fun h0 => hclip ?_⟩, fun _ => hdec⟩
    rw [h0]
    exact UInt64.zero_le
  · exact ⟨fun h => absurd h hdec, fun h => absurd h.1 hdec⟩

theorem charByte_ne {c : Char} (hc : c.isDigit) : charByte c ≠ 45 := by
  intro h
  have hdigit := isDigit_iff.1 hc
  have hnat := congrArg UInt8.toNat h
  rw [toNat_charByte (lt_of_isDigit hc)] at hnat
  simp at hnat
  omega

/-- The digits of an integer part that has an absolute value are its numeral. -/
theorem laidDigits_floatHi (hmin : F.toIsz float ≠ Int64.minValue) :
    laidDigits iszDigit (· / 10) (digitCount (floatHi F float)) (floatHi F float) =
      (Nat.toDigits 10 (floatHi F float).toInt.natAbs).map charByte := by
  have habs : (floatHi F float).toInt = ((floatHi F float).toInt.natAbs : Nat) := by
    rw [floatHi, toInt_abs hmin]
    rfl
  calc _ = (lowDigits (digitCount (floatHi F float)) (floatHi F float).toInt.natAbs).map charByte :=
    laidDigits_int _ habs
    _ = _ := by rw [digitCount, ← length_toDigits, lowDigits_length_toDigits]

/-- What the reader makes of the number without its sign. -/
theorem foldlM_regular (hmin : F.toIsz float ≠ Int64.minValue) :
    (laidDigits iszDigit (· / 10) (digitCount (floatHi F float)) (floatHi F float) ++
      regularTail F float decimalPlaces).foldlM takeByte {} =
    if regularPlaces F float decimalPlaces > 0 then some {
        integer := UInt64.ofNat (floatHi F float).toInt.natAbs
        parsingStage := 1
        fraction :=
          UInt64.ofNat ((floatDecimal F float (regularPlaces F float decimalPlaces)).toNat %
          10 ^ (regularPlaces F float decimalPlaces).toNat)
        fractionCount := regularPlaces F float decimalPlaces }
    else if decimalPlaces > 0 then none
    else some { integer := UInt64.ofNat (floatHi F float).toInt.natAbs } := by
  rw [laidDigits_floatHi hmin, List.foldlM_append, foldlM_integer isDigit_toDigits,
    Nat.ofDigitChars_ten_toDigits, Option.bind_eq_bind, Option.bind_some, regularTail]
  split_ifs
  · rw [show uszDigit = fun n : Usz => (n % 10 + 48).toUInt8 from rfl, laidDigits_uint,
      foldlM_fraction (fun _ => isDigit_of_mem_lowDigits), ofDigitChars_lowDigits,
      length_lowDigits, UInt64.ofNat_toNat]
  · rfl
  · rfl

/-- The digits of the least integer begin with a quote. -/
theorem laidDigits_minValue_quote :
    ∃ bs, laidDigits iszDigit (· / 10) (digitCount (abs Int64.minValue)) (abs Int64.minValue) =
      39 :: bs :=
  ⟨_, (by
    decide +kernel : _ = (39 :: [46, 46, 45, 45, 41, 46, 48, 45, 42, 40, 43, 44, 41, 41, 43,
      40, 48, 40] : List UInt8))⟩

theorem regular_readsBack_iff {m m' : Mem} {dst dst' : String} (hdst : Writable m dst)
    (hread : m.Readable (dst.base + dst.writeCur) dst.room)
    (hrun : appendFloatToStringRegular F float decimalPlaces dst m = .ok (true, dst', m')) :
    ReadsBack dst dst' m' (regularNumber F float decimalPlaces) ↔
      RegularReadable F float decimalPlaces := by
  have hholds := (writes_regular hdst).holdsAscii hdst hread regularText_lt hrun
  rw [regularText] at hholds
  by_cases hmin : F.toIsz float = Int64.minValue
  · obtain ⟨bs, hbs⟩ := laidDigits_minValue_quote
    have hquote : takeByte {} 39 = none := rfl
    rw [floatHi, hmin, hbs, List.cons_append] at hholds
    rw [readsBack_iff (readFloat_eq (by decide) hholds), List.foldlM_cons, hquote]
    exact iff_of_false (by simp) fun h => h.1 hmin
  · obtain ⟨c, cs, hcs⟩ := List.exists_cons_of_ne_nil
      (Nat.toDigits_ne_nil (b := 10) (n := (floatHi F float).toInt.natAbs))
    have hc : c.isDigit := isDigit_toDigits c (hcs ▸ List.mem_cons_self)
    have hfold := @foldlM_regular φ F float decimalPlaces hmin
    rw [laidDigits_floatHi hmin, hcs, List.map_cons, List.cons_append] at hholds hfold
    have hpos := @regularPlaces_pos_iff φ F float decimalPlaces
    rw [readsBack_iff (readFloat_eq (charByte_ne hc) hholds), hfold, RegularReadable]
    have hword : ∀ x : Usz, ∀ k, (UInt64.ofNat (x.toNat % k)).toNat = x.toNat % k := fun x k => by
      rw [UInt64.toNat_ofNat']
      exact Nat.mod_eq_of_lt (Nat.lt_of_le_of_lt (Nat.mod_le _ _) x.toNat_lt)
    have hinteger : (UInt64.ofNat (floatHi F float).toInt.natAbs).toNat =
        (floatHi F float).toInt.natAbs := by
      have := natAbs_toInt_le (floatHi F float)
      rw [UInt64.toNat_ofNat']
      exact Nat.mod_eq_of_lt (by omega)
    by_cases hplaces : regularPlaces F float decimalPlaces > 0
    · rw [if_pos hplaces]
      exact iff_of_true ⟨_, rfl, hinteger, hword _ _, rfl, rfl, rfl⟩ ⟨hmin, .inr (hpos.1 hplaces).2⟩
    · have hzero : regularPlaces F float decimalPlaces = 0 := by
        simpa [UInt64.pos_iff_ne_zero] using hplaces
      rw [if_neg hplaces]
      by_cases hdec : decimalPlaces > 0
      · have hne : decimalPlaces ≠ 0 := by rwa [gt_iff_lt, UInt64.pos_iff_ne_zero] at hdec
        rw [if_pos hdec]
        refine iff_of_false (by simp) ?_
        rintro ⟨-, h0 | h19⟩
        · exact hne h0
        · exact hplaces (hpos.2 ⟨hne, h19⟩)
      · have h0 : decimalPlaces = 0 := by simpa [UInt64.pos_iff_ne_zero] using hdec
        rw [if_neg hdec]
        refine iff_of_true ⟨_, rfl, hinteger, ?_, ?_, rfl, rfl⟩ ⟨hmin, .inl h0⟩
        · simp [regularNumber, hzero, Nat.mod_one]
        · simp [regularNumber, hzero]

/-! ### The scientific layout -/

/-- What the scaling relies on: a number below one is at most ten when multiplied by ten, one above
ten is at least one when divided by it, and the integer part of a number from one to ten is at most
ten. -/
structure FloatOps.Scales (F : FloatOps φ) : Prop where
  mul_ten : ∀ x, F.lt x (F.ofInt 1) → ¬ F.lt (F.ofInt 10) (F.mul x (F.ofInt 10))
  div_ten : ∀ x, F.lt (F.ofInt 10) x → ¬ F.lt (F.div x (F.ofInt 10)) (F.ofInt 1)
  toChar_le : ∀ x, ¬ F.lt x (F.ofInt 1) → ¬ F.lt (F.ofInt 10) x → F.toChar x ≤ 10

theorem scaleUp_range (hF : F.Scales) {x y : φ} {exp : Usz} (hx : F.lt x (F.ofInt 1))
    (h : scaleUp F x = .ok (y, exp)) : ¬ F.lt y (F.ofInt 1) ∧ ¬ F.lt (F.ofInt 10) y := by
  refine of_whileLoop_ok (Q := fun res => ¬ F.lt res.1 (F.ofInt 1) ∧ ¬ F.lt (F.ofInt 10) res.1)
    (fun st => F.lt st.1 (F.ofInt 1) ∨ ¬ F.lt (F.ofInt 10) st.1) ?_ (.inl hx) h
  rintro ⟨y, exp⟩ c hinv hc
  dsimp only at hc
  split_ifs at hc with hlt
  · cases hc
    exact .inr (hF.mul_ten y hlt)
  · cases hc
    exact ⟨hlt, hinv.resolve_left hlt⟩

theorem scaleDown_range (hF : F.Scales) {x y : φ} {exp : Usz} (hx : ¬ F.lt x (F.ofInt 1))
    (h : scaleDown F x = .ok (y, exp)) : ¬ F.lt y (F.ofInt 1) ∧ ¬ F.lt (F.ofInt 10) y := by
  refine of_whileLoop_ok (Q := fun res => ¬ F.lt res.1 (F.ofInt 1) ∧ ¬ F.lt (F.ofInt 10) res.1)
    (fun st => ¬ F.lt st.1 (F.ofInt 1)) ?_ hx h
  rintro ⟨y, exp⟩ c hinv hc
  dsimp only at hc
  split_ifs at hc with hlt
  · cases hc
    exact hF.div_ten y hlt
  · cases hc
    exact ⟨hinv, hlt⟩

theorem scaled_spec (hF : F.Scales) {y : φ} {exp : Usz} {expSign : Isz}
    (h : scaled F float = .ok (y, exp, expSign)) :
    F.toChar y ≤ 10 ∧ (expSign = -1 ∨ expSign = 1) := by
  rw [scaled] at h
  dsimp only at h
  generalize (if F.lt float (F.ofInt 0) then F.mul float (F.ofInt (-1)) else float) = x at h
  by_cases hx : F.lt x (F.ofInt 1)
  · rw [if_pos hx, Except.bind_eq_ok] at h
    obtain ⟨⟨y', exp'⟩, hup, h⟩ := h
    cases h
    obtain ⟨hlo, hhi⟩ := scaleUp_range hF hx hup
    exact ⟨hF.toChar_le _ hlo hhi, .inl rfl⟩
  · rw [if_neg hx, Except.bind_eq_ok] at h
    obtain ⟨⟨y', exp'⟩, hdown, h⟩ := h
    cases h
    obtain ⟨hlo, hhi⟩ := scaleDown_range hF hx hdown
    exact ⟨hF.toChar_le _ hlo hhi, .inr rfl⟩

theorem snText_lt {y : φ} {exp : Usz} {expSign : Isz} (hlead : F.toChar y ≤ 10) :
    ∀ b ∈ snText F float decimalPlaces y exp expSign, b.toNat < 128 := by
  intro b hb
  simp only [snText, List.mem_append, or_assoc] at hb
  rcases hb with hb | hb | hb | hb | hb
  · exact minus_lt b hb
  · have hle : (F.toChar y).toNat ≤ 10 := UInt8.le_iff_toNat_le.1 hlead
    rcases List.mem_cons.1 hb with rfl | hb
    · rw [UInt8.toNat_add]
      simp
      omega
    · rw [List.mem_singleton.1 hb]
      decide
  · split_ifs at hb
    · exact laidDigits_lt uszDigit_lt b hb
    · rw [List.mem_singleton.1 hb]
      decide
  · rcases List.mem_cons.1 hb with rfl | hb
    · decide
    · rw [List.mem_singleton.1 hb]
      split_ifs <;> decide
  · exact laidDigits_lt uszDigit_lt b (List.mem_of_mem_take hb)

/-- The digits behind the dot. -/
def snDecimals (F : FloatOps φ) (decimalPlaces : Usz) (y : φ) : List Char :=
  if decimalPlaces > 0 then lowDigits decimalPlaces.toNat (scaledDecimal F y decimalPlaces).toNat
    else ['0']

/-- The digits of the exponent. -/
def snExponent (decimalPlaces exp : Usz) : List Char :=
  if decimalPlaces > 0 then lowDigits 3 exp.toNat else lowDigits 2 (exp.toNat / 10)

theorem snText_eq (F : FloatOps φ) (float : φ) (decimalPlaces : Usz) (y : φ)
    (exp : Usz) (expSign : Isz) :
    snText F float decimalPlaces y exp expSign = (if F.lt float (F.ofInt 0) then [45] else []) ++
      (F.toChar y + 48) :: ((46 :: (snDecimals F decimalPlaces y).map charByte) ++
        (101 :: (if expSign > 0 then 43 else 45) ::
          (snExponent decimalPlaces exp).map charByte)) := by
  have hlast : uszDigit = fun n : Usz => (n % 10 + 48).toUInt8 := rfl
  rw [snText, snDecimals, snExponent, hlast, laidDigits_uint 3]
  by_cases hdec : decimalPlaces > 0
  · rw [if_pos hdec, if_pos hdec, if_pos hdec, if_pos hdec, laidDigits_uint, ← List.map_take,
      List.take_of_length_le (by rw [length_lowDigits])]
    simp
  · have htwo : (lowDigits 3 exp.toNat).take 2 = lowDigits 2 (exp.toNat / 10) :=
      List.take_left' (length_lowDigits ..)
    have hzero : charByte '0' = 48 := rfl
    rw [if_neg hdec, if_neg hdec, if_neg hdec, if_neg hdec, ← List.map_take, htwo]
    simp [hzero]

theorem isDigit_snDecimals {y : φ} : ∀ c ∈ snDecimals F decimalPlaces y, c.isDigit := by
  intro c hc
  rw [snDecimals] at hc
  split_ifs at hc
  · exact isDigit_of_mem_lowDigits hc
  · rw [List.mem_singleton.1 hc]
    decide

theorem isDigit_snExponent {exp : Usz} : ∀ c ∈ snExponent decimalPlaces exp, c.isDigit := by
  intro c hc
  rw [snExponent] at hc
  split_ifs at hc <;> exact isDigit_of_mem_lowDigits hc

theorem takeByte_lead {a : UInt8} (ha : a ≤ 10) :
    takeByte {} (a + 48) = if a < 10 then some { integer := a.toUInt64 } else none := by
  have hle : a.toNat ≤ 10 := UInt8.le_iff_toNat_le.1 ha
  obtain ⟨k, hk⟩ : ∃ k, k = a.toNat := ⟨_, rfl⟩
  rw [← hk] at hle
  obtain rfl : a = UInt8.ofNat k := by rw [hk, UInt8.ofNat_toNat]
  interval_cases k <;> decide

/-- What the reader makes of the number without its sign. -/
theorem foldlM_inSN {y : φ} {exp : Usz} {expSign : Isz} (hlead : F.toChar y ≤ 10)
    (hsign : expSign = -1 ∨ expSign = 1) :
    ((F.toChar y + 48) :: ((46 :: (snDecimals F decimalPlaces y).map charByte) ++
      (101 :: (if expSign > 0 then 43 else 45) :: (snExponent decimalPlaces exp).map
        charByte))).foldlM takeByte {} =
    if expSign = -1 ∧ F.toChar y < 10 then some {
        integer := (F.toChar y).toUInt64
        parsingStage := 2
        fraction := UInt64.ofNat (Nat.ofDigitChars 10 (snDecimals F decimalPlaces y) 0)
        fractionCount := UInt64.ofNat (snDecimals F decimalPlaces y).length
        exponentSign := -1
        exponent := UInt64.ofNat (Nat.ofDigitChars 10 (snExponent decimalPlaces exp) 0) }
    else none := by
  rw [List.foldlM_cons, takeByte_lead hlead]
  by_cases hdigit : F.toChar y < 10
  · rw [if_pos hdigit, Option.bind_eq_bind, Option.bind_some, List.foldlM_append,
      foldlM_fraction isDigit_snDecimals, Option.bind_eq_bind, Option.bind_some]
    rcases hsign with rfl | rfl
    · rw [if_neg (by decide), foldlM_exponent isDigit_snExponent rfl rfl, if_pos ⟨rfl, hdigit⟩]
    · rw [if_pos (by decide), foldlM_plus rfl, if_neg (fun h => absurd h.1 (by decide))]
  · rw [if_neg hdigit, Option.bind_eq_bind, Option.bind_none]
    exact (if_neg fun h => hdigit h.2).symm

theorem snDecimals_value (F : FloatOps φ) (decimalPlaces : Usz) (y : φ) :
    (UInt64.ofNat (Nat.ofDigitChars 10 (snDecimals F decimalPlaces y) 0)).toNat =
      if decimalPlaces > 0 then (scaledDecimal F y decimalPlaces).toNat % 10 ^ decimalPlaces.toNat
      else 0 := by
  rw [snDecimals]
  split_ifs
  · rw [ofDigitChars_lowDigits, UInt64.toNat_ofNat']
    exact Nat.mod_eq_of_lt (Nat.lt_of_le_of_lt (Nat.mod_le _ _) (UInt64.toNat_lt _))
  · rfl

theorem snDecimals_count (F : FloatOps φ) (decimalPlaces : Usz) (y : φ) :
    (UInt64.ofNat (snDecimals F decimalPlaces y).length).toNat = if decimalPlaces > 0 then
      decimalPlaces.toNat else 1 := by
  rw [snDecimals]
  split_ifs
  · rw [length_lowDigits, UInt64.ofNat_toNat]
  · rfl

theorem snExponent_eq_iff (decimalPlaces exp : Usz) :
    (UInt64.ofNat (Nat.ofDigitChars 10 (snExponent decimalPlaces exp) 0)).toNat = exp.toNat % 1000 ↔
      decimalPlaces ≠ 0 ∨ exp.toNat % 1000 = 0 := by
  rw [snExponent]
  by_cases hdec : decimalPlaces > 0
  · have hne : decimalPlaces ≠ 0 := by rwa [gt_iff_lt, UInt64.pos_iff_ne_zero] at hdec
    rw [if_pos hdec, ofDigitChars_lowDigits, UInt64.toNat_ofNat']
    exact iff_of_true (by omega) (.inl hne)
  · have h0 : decimalPlaces = 0 := by simpa [UInt64.pos_iff_ne_zero] using hdec
    -- without its last digit
    have hdiv : exp.toNat / 10 % 10 ^ 2 = exp.toNat % 1000 / 10 := by omega
    rw [if_neg hdec, ofDigitChars_lowDigits, UInt64.toNat_ofNat', h0, hdiv,
      Nat.mod_eq_of_lt (by omega)]
    simp
    omega

theorem inSN_readsBack_iff (hF : F.Scales) {m m' : Mem} {dst dst' : String} {y : φ}
    {exp : Usz} {expSign : Isz} (hdst : Writable m dst)
    (hread : m.Readable (dst.base + dst.writeCur) dst.room)
    (hscaled : scaled F float = .ok (y, exp, expSign))
    (hrun : appendFloatToStringInSN F float decimalPlaces dst m = .ok (true, dst', m')) :
    ReadsBack dst dst' m' (snNumber F float decimalPlaces y exp expSign) ↔
      SNReadable F decimalPlaces y exp expSign := by
  obtain ⟨hlead, hsign⟩ := scaled_spec hF hscaled
  have hholds := (writes_inSN hdst hscaled).holdsAscii hdst hread (snText_lt hlead) hrun
  have hne : F.toChar y + 48 ≠ 45 := by
    have hle : (F.toChar y).toNat ≤ 10 := UInt8.le_iff_toNat_le.1 hlead
    intro h
    have hnat := congrArg UInt8.toNat h
    rw [UInt8.toNat_add] at hnat
    simp at hnat
    omega
  rw [snText_eq] at hholds
  rw [readsBack_iff (readFloat_eq hne hholds), foldlM_inSN hlead hsign, SNReadable, ← and_assoc]
  by_cases hacc : expSign = -1 ∧ F.toChar y < 10
  · rw [if_pos hacc, and_iff_right hacc, ← snExponent_eq_iff]
    constructor
    · rintro ⟨s, hs, hhas⟩
      cases hs
      exact hhas.exponent_eq
    · intro hexp
      exact ⟨_, rfl, UInt8.toNat_toUInt64 _, snDecimals_value ..,
        snDecimals_count .., hacc.1.symm, hexp⟩
  · rw [if_neg hacc]
    exact iff_of_false (by simp) fun h => hacc h.1

/-- The scaled number is there when the function returns true. -/
theorem scaled_of_true {m m' : Mem} {dst dst' : String}
    (hrun : appendFloatToStringInSN F float decimalPlaces dst m = .ok (true, dst', m')) :
    ∃ y exp expSign, scaled F float = .ok (y, exp, expSign) := by
  rw [appendFloatToStringInSN] at hrun
  dsimp only at hrun
  split_ifs at hrun
  · rw [Except.bind_eq_ok] at hrun
    obtain ⟨⟨ptr, digits⟩, -, hrun⟩ := hrun
    dsimp only at hrun
    rw [Except.bind_eq_ok] at hrun
    obtain ⟨⟨y, exp, expSign⟩, hscaled, -⟩ := hrun
    exact ⟨y, exp, expSign, hscaled⟩
  · cases hrun

end

/-- The text of a float is accepted, with the sign, the digits and the exponent that were written,
exactly if its layout allows it. -/
theorem floatText_readsBack_iff {φ : Type} (F : FloatOps φ) (hF : F.Scales)
    (float : φ) (decimalPlaces : Usz) (m m' : Mem) (dst dst' : String) (hdst : Writable m dst)
    (hread : m.Readable (dst.base + dst.writeCur) dst.room) :
    (appendFloatToString F float decimalPlaces false dst m = .ok (true, dst', m') →
      (ReadsBack dst dst' m' (regularNumber F float decimalPlaces) ↔
        RegularReadable F float decimalPlaces)) ∧
    (appendFloatToString F float decimalPlaces true dst m = .ok (true, dst', m') →
      ∃ y exp expSign, scaled F float = .ok (y, exp, expSign) ∧
        (ReadsBack dst dst' m' (snNumber F float decimalPlaces y exp expSign) ↔
          SNReadable F decimalPlaces y exp expSign)) := by
  refine ⟨regular_readsBack_iff hdst hread, fun hrun => ?_⟩
  obtain ⟨y, exp, expSign, hscaled⟩ := scaled_of_true hrun
  exact ⟨y, exp, expSign, hscaled, inSN_readsBack_iff hF hdst hread hscaled hrun⟩

/-! Numbers without rounding: the casts go towards zero. -/

def ratTrunc (x : ℚ) : Int := if 0 ≤ x then ⌊x⌋ else ⌈x⌉

def ratOps : FloatOps ℚ where
  lt a b := a < b
  neg a := -a
  add a b := a + b
  sub a b := a - b
  mul a b := a * b
  div a b := a / b
  pow a b := a ^ ratTrunc b
  ofInt n := n
  toIsz a := Int64.ofInt (ratTrunc a)
  toUsz a := UInt64.ofInt (ratTrunc a)
  toChar a := UInt8.ofInt (ratTrunc a)
  dblMax := (2 ^ 53 - 1) * 2 ^ 971

theorem scales_ratOps : ratOps.Scales where
  mul_ten x h := by
    simp only [ratOps, decide_eq_true_eq] at h ⊢
    push_cast at h ⊢
    linarith
  div_ten x h := by
    simp only [ratOps, decide_eq_true_eq] at h ⊢
    push_cast at h ⊢
    linarith
  toChar_le x hlo hhi := by
    simp only [ratOps, decide_eq_true_eq] at hlo hhi ⊢
    push_cast at hlo hhi
    have hpos : 0 ≤ x := by linarith
    have h0 : 0 ≤ ⌊x⌋ := Int.le_floor.2 (by simpa using hpos)
    have h11 : ⌊x⌋ < 11 := Int.floor_lt.2 (by push_cast; linarith)
    rw [ratTrunc, if_pos hpos]
    generalize ⌊x⌋ = k at h0 h11
    interval_cases k <;> decide

theorem scaled_half : scaled ratOps (1 / 2) = .ok (5, 1, -1) := by
  have hup : scaleUp ratOps (1 / 2) = .ok (5, 1) :=
    whileLoop_of_iterate 2 (by decide) (by decide +kernel)
  have hpos : ¬ ratOps.lt (1 / 2) (ratOps.ofInt 0) := by decide +kernel
  have hone : ratOps.lt (1 / 2) (ratOps.ofInt 1) := by decide +kernel
  rw [scaled, if_neg hpos, if_pos hone, hup]
  rfl

theorem floatText_readsBack_iff_halves :
    (∃ dst' m', appendFloatToString ratOps (-7 / 2) 2 false (numberDst .utf16be) blankMem =
      .ok (true, dst', m') ∧ ReadsBack (numberDst .utf16be) dst' m' ⟨-1, 3, 50, 2, 1, 0⟩) ∧
    ∃ dst' m', appendFloatToString ratOps (1 / 2) 1 true (numberDst .utf32le) blankMem =
      .ok (true, dst', m') ∧ ReadsBack (numberDst .utf32le) dst' m' ⟨1, 5, 0, 1, -1, 1⟩ := by
  constructor
  · have hfits : (regularText ratOps (-7 / 2) 2).length = 5 := by decide +kernel
    have happ := (@writes_regular _ _ _ ratOps (-7 / 2) 2 (writable_numberDst .utf16be)).of_fits
      (by rw [hfits]; decide)
    have hrun := happ.of_le (by rw [length_flatMap_wideChar, hfits]; decide)
    have hback :=
      (floatText_readsBack_iff ratOps scales_ratOps (-7 / 2) 2 blankMem _ (numberDst .utf16be) _
      (writable_numberDst _) (fun _ _ => rfl)).1 hrun
    have hnumber : regularNumber ratOps (-7 / 2) 2 = ⟨-1, 3, 50, 2, 1, 0⟩ := by decide +kernel
    rw [hnumber] at hback
    exact ⟨_, _, hrun, hback.2 ⟨by decide +kernel, by decide +kernel⟩⟩
  · have hfits : (snText ratOps (1 / 2) 1 5 1 (-1)).length = 8 := by decide +kernel
    have happ := (@writes_inSN _ _ _ _ _ 1 (writable_numberDst .utf32le) _ _ _ scaled_half).of_fits
      (by rw [hfits]; decide)
    have hrun := happ.of_le (by rw [length_flatMap_wideChar, hfits]; decide)
    obtain ⟨y, exp, expSign, hscaled, hback⟩ :=
      (floatText_readsBack_iff ratOps scales_ratOps (1 / 2) 1 blankMem _
      (numberDst .utf32le) _ (writable_numberDst _) (fun _ _ => rfl)).2 hrun
    rw [scaled_half] at hscaled
    cases hscaled
    have hnumber : snNumber ratOps (1 / 2) 1 5 1 (-1) = ⟨1, 5, 0, 1, -1, 1⟩ := by decide +kernel
    rw [hnumber] at hback
    exact ⟨_, _, hrun, hback.2 ⟨rfl, by decide +kernel, .inl (by decide)⟩⟩

theorem scaled_five : scaled ratOps 5 = .ok (5, 0, 1) := by
  have hdown : scaleDown ratOps 5 = .ok (5, 0) :=
    whileLoop_of_iterate 1 (by decide) (by decide +kernel)
  have hpos : ¬ ratOps.lt 5 (ratOps.ofInt 0) := by decide +kernel
  have hone : ¬ ratOps.lt 5 (ratOps.ofInt 1) := by decide +kernel
  rw [scaled, if_neg hpos, if_neg hone, hdown]
  rfl

/-- The third text of the comment in front of `_AppendFloatToStringInSN`. -/
theorem stringToFloat_rejects_five :
    appendFloatToString ratOps 5 1 true (numberDst .ascii) blankMem =
      .ok (true, (numberDst .ascii).grown 8, blankMem.store 64 ("5.0e+000".toList.map charByte)) ∧
    stringToFloat ratOps (appendedPart (numberDst .ascii) 8)
      (blankMem.store 64 ("5.0e+000".toList.map charByte)) = .ok ratOps.dblMax := by
  have htext : snText ratOps 5 1 5 0 1 = "5.0e+000".toList.map charByte := by decide +kernel
  have hwrites := @writes_inSN _ _ _ _ _ 1 (writable_numberDst .ascii) _ _ _ scaled_five
  rw [htext] at hwrites
  have hrun := (hwrites.of_fits (by decide)).of_le (by decide)
  refine ⟨hrun, ?_⟩
  have hholds :=
    hwrites.holdsAscii (writable_numberDst .ascii) (fun _ _ => rfl) (by decide +kernel) hrun
  have hplus : ([53, 46, 48, 101, 43, 48, 48, 48] : List UInt8).foldlM takeByte {} = none := by
    decide +kernel
  have hread := @readFloat_eq _ _ false 53 [46, 48, 101, 43, 48, 48, 48] (by decide) hholds
  rw [hplus] at hread
  have hlen : (((numberDst .ascii).grown 8).writeCur - (numberDst .ascii).writeCur).toNat = 8 := by
    decide +kernel
  have hstored : (numberDst .ascii).base + (numberDst .ascii).writeCur = 64 := by decide +kernel
  have hbytes : ("5.0e+000".toList.map charByte).flatMap (wideChar .ascii) =
      "5.0e+000".toList.map charByte := by
    decide +kernel
  rw [show (numberDst .ascii).enc = .ascii from rfl, hbytes, hstored] at hread
  have hnone : readFloat (appendedPart (numberDst .ascii) 8)
      (blankMem.store 64 ("5.0e+000".toList.map charByte)) = .ok none := by
    rw [← hlen]
    exact hread
  rw [stringToFloat, hnone]
  rfl

end TinyBase
