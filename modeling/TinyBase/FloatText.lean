import TinyBase.Floats

/-!
# Reading the text of a floating-point number back

`LaidAt enc ptr digits text`: the characters `text` have been laid into the array, and `ptr` is
behind them. A write that returns is one inside the array, so a writer that returns true has
appended the text it laid; the reader is then run on that text.
-/

namespace TinyBase
open Decimal

/-! ### The array -/

/-- The characters `text` in the array of 128 bytes, and `ptr` behind them. -/
structure LaidAt (enc : Encoding) (ptr : Usz) (digits text : List UInt8) : Prop where
  ptr_eq : ptr.toNat = text.length * (digitSize enc).toNat
  fits : text.length * (digitSize enc).toNat ≤ 128
  digits_eq :
    digits = text.flatMap (wideChar enc) ++ zeros (128 - text.length * (digitSize enc).toNat)

/-- Digits that are laid to the end of the array and beyond. -/
theorem layDigits_ne_ok {ι : Type} (lastDigit : ι → UInt8) (rest : ι → ι)
    {ptr numDigits : Usz} {enc : Encoding} (integer : ι) {digits : List UInt8} {k : Nat}
    (hk : k < numDigits.toNat) (hout : digits.length ≤ ptr.toNat + k * (digitSize enc).toNat)
    (hsmall : ptr.toNat + k * (digitSize enc).toNat + 4 ≤ 2 ^ 64) (digits' : List UInt8) :
    layDigits lastDigit rest ptr numDigits enc integer digits ≠ .ok digits' := by
  have hnum := numDigits.toNat_lt
  intro hok
  refine of_whileLoop_ok (Q := fun _ => False)
    (fun st => st.1.toNat + k < numDigits.toNat ∧ st.2.2.length = digits.length)
    ?_ ⟨by simpa using hk, rfl⟩ hok
  rintro ⟨digit, integer', digits'⟩ c ⟨hlt, hlen⟩ hc
  dsimp only at hlt hlen
  have hin : digit < numDigits := UInt64.lt_iff_toNat_lt.2 (by omega)
  dsimp only at hc
  rw [if_pos hin, Except.bind_eq_ok] at hc
  obtain ⟨digits'', hset, hc⟩ := hc
  cases hc
  rw [setDigit] at hset
  split_ifs at hset with hidx
  cases hset
  refine ⟨?_, (List.length_set ..).trans hlen⟩
  have hnext : (digit + 1).toNat = digit.toNat + 1 := UInt64.toNat_add_one (by omega)
  rw [hnext]
  -- the digit with `k` digits behind it is outside
  refine Nat.lt_of_le_of_ne (by omega) fun heq => ?_
  rw [toNat_digitIdx (k := k) (by omega) hsmall] at hidx
  omega

namespace LaidAt
variable {enc : Encoding} {ptr : Usz} {digits digits' text : List UInt8} {b : UInt8}

theorem empty : LaidAt enc 0 emptyFloatDigits [] := ⟨by simp, by simp, by simp [emptyFloatDigits]⟩

theorem length_digits (h : LaidAt enc ptr digits text) : digits.length = 128 := by
  have := h.fits
  rw [h.digits_eq, List.length_append, length_flatMap_wideChar, length_zeros]
  omega

theorem length_le (h : LaidAt enc ptr digits text) : text.length ≤ 128 :=
  have hpos : 0 < (digitSize enc).toNat := Nat.lt_of_le_of_lt (Nat.zero_le _) (digitSize_le enc).1
  Nat.le_trans (Nat.le_mul_of_pos_right _ hpos) h.fits

/-- A character more ends within the array, or begins behind it. -/
theorem succ_fits_or (h : LaidAt enc ptr digits text) (k : Nat) :
    (text.length + k) * (digitSize enc).toNat ≤ 128 ∨
      ∃ j < k, 128 ≤ (text.length + j) * (digitSize enc).toNat ∧
      (text.length + j) * (digitSize enc).toNat ≤ 132 := by
  have hfits := h.fits
  induction k with
  | zero => exact .inl hfits
  | succ k ih =>
    rcases ih with ih | ⟨j, hj, hout⟩
    · by_cases hk : (text.length + (k + 1)) * (digitSize enc).toNat ≤ 128
      · exact .inl hk
      · refine .inr ⟨k, Nat.lt_succ_self k, ?_⟩
        -- the size of a character divides that of the array
        cases enc <;> simp [digitSize, Encoding.code] at * <;> omega
    · exact .inr ⟨j, Nat.lt_succ_of_lt hj, hout⟩

theorem put (h : LaidAt enc ptr digits text)
    (hset : setDigit digits (ptr + digitOffset enc) b = .ok digits') :
    LaidAt enc (ptr + digitSize enc) digits' (text ++ [b]) := by
  obtain ⟨hoff, hsize⟩ := digitSize_le enc
  have hptr := h.ptr_eq
  have hfits := h.fits
  have hidx : (ptr + digitOffset enc).toNat = text.length * (digitSize enc).toNat +
      (digitOffset enc).toNat := by
    rw [UInt64.toNat_add, hptr]; exact Nat.mod_eq_of_lt (by omega)
  have hnext : (ptr + digitSize enc).toNat = (text.length + 1) * (digitSize enc).toNat := by
    rw [UInt64.toNat_add, hptr, Nat.succ_mul]; exact Nat.mod_eq_of_lt (by omega)
  rcases h.succ_fits_or 1 with hin | ⟨j, hj, hout, -⟩
  · refine ⟨by rw [hnext, List.length_append]; rfl, by rw [List.length_append]; exact hin, ?_⟩
    have hzeros : 128 - text.length * (digitSize enc).toNat =
        (digitSize enc).toNat + (128 - (text ++ [b]).length * (digitSize enc).toNat) := by
      rw [List.length_append, List.length_singleton]
      rw [Nat.succ_mul] at hin ⊢
      omega
    rw [h.digits_eq, hzeros, zeros_add,
      setDigit_zeros enc b (by rw [hidx, length_flatMap_wideChar])] at hset
    cases hset
    simp
  · obtain rfl : j = 0 := by omega
    rw [setDigit, if_neg (by rw [h.length_digits, hidx]; simp at hout; omega)] at hset
    cases hset

theorem put_ok (h : LaidAt enc ptr digits text)
    (hin : (text.length + 1) * (digitSize enc).toNat ≤ 128) (b : UInt8) :
    ∃ digits', setDigit digits (ptr + digitOffset enc) b = .ok digits' ∧
      LaidAt enc (ptr + digitSize enc) digits' (text ++ [b]) := by
  obtain ⟨hoff, hsize⟩ := digitSize_le enc
  have hptr := h.ptr_eq
  have hidx : (ptr + digitOffset enc).toNat < digits.length := by
    rw [Nat.succ_mul] at hin
    rw [UInt64.toNat_add, hptr, h.length_digits, Nat.mod_eq_of_lt (by omega)]
    omega
  exact ⟨_, if_pos hidx, h.put (if_pos hidx)⟩

theorem lay_eq {ι : Type} (lastDigit : ι → UInt8) (rest : ι → ι) {numDigits : Usz} (integer : ι)
    (h : LaidAt enc ptr digits text)
    (hin : (text.length + numDigits.toNat) * (digitSize enc).toNat ≤ 128) :
    ∃ digits', layDigits lastDigit rest ptr numDigits enc integer digits = .ok digits' ∧
      LaidAt enc (ptr + numDigits * digitSize enc) digits'
      (text ++ laidDigits lastDigit rest numDigits.toNat integer) := by
  obtain ⟨hoff, hsize⟩ := digitSize_le enc
  have hptr := h.ptr_eq
  have hlen : (text ++ laidDigits lastDigit rest numDigits.toNat integer).length =
      text.length + numDigits.toNat := by
    rw [List.length_append, length_laidDigits]
  rw [Nat.add_mul] at hin
  have hnext : (ptr + numDigits * digitSize enc).toNat = (text.length + numDigits.toNat) *
      (digitSize enc).toNat := by
    rw [UInt64.toNat_add, UInt64.toNat_mul, hptr, Nat.add_mul,
      Nat.mod_eq_of_lt (a := _ * _) (by omega)]
    exact Nat.mod_eq_of_lt (by omega)
  have hzeros : 128 - text.length * (digitSize enc).toNat =
      numDigits.toNat * (digitSize enc).toNat +
      (128 - (text ++ laidDigits lastDigit rest numDigits.toNat integer).length *
        (digitSize enc).toNat) := by
    rw [hlen, Nat.add_mul]
    omega
  rw [h.digits_eq, hzeros, zeros_add,
    layDigits_eq lastDigit rest integer (by rw [hptr, length_flatMap_wideChar])
    (by rw [length_flatMap_wideChar]; omega)]
  exact ⟨_, rfl, by rw [hnext, hlen], by rw [hlen, Nat.add_mul]; exact hin, by simp⟩

theorem lay {ι : Type} {lastDigit : ι → UInt8} {rest : ι → ι} {numDigits : Usz} {integer : ι}
    (h : LaidAt enc ptr digits text)
    (hlay : layDigits lastDigit rest ptr numDigits enc integer digits = .ok digits') :
    LaidAt enc (ptr + numDigits * digitSize enc) digits'
      (text ++ laidDigits lastDigit rest numDigits.toNat integer) := by
  have hptr := h.ptr_eq
  rcases h.succ_fits_or numDigits.toNat with hin | ⟨j, hj, hout, hle⟩
  · obtain ⟨digits'', hlay', hlaid⟩ := h.lay_eq lastDigit rest integer hin
    rw [hlay] at hlay'
    cases hlay'
    exact hlaid
  · rw [Nat.add_mul] at hout hle
    exact absurd hlay
      (layDigits_ne_ok lastDigit rest integer hj (by rw [h.length_digits, hptr]; exact hout)
      (by rw [hptr]; omega) digits')

theorem lt_of_setDigit_error {e : Fault} (h : LaidAt enc ptr digits text)
    (hset : setDigit digits (ptr + digitOffset enc) b = .error e) :
    128 < (text.length + 1) * (digitSize enc).toNat := by
  by_contra hin
  obtain ⟨digits', hok, -⟩ := h.put_ok (Nat.le_of_not_lt hin) b
  rw [hset] at hok
  cases hok

theorem lt_of_layDigits_error {ι : Type} {lastDigit : ι → UInt8} {rest : ι → ι}
    {numDigits : Usz} {integer : ι} {e : Fault} (h : LaidAt enc ptr digits text)
    (hlay : layDigits lastDigit rest ptr numDigits enc integer digits = .error e) :
    128 < (text.length + numDigits.toNat) * (digitSize enc).toNat := by
  by_contra hin
  obtain ⟨digits', hok, -⟩ := h.lay_eq lastDigit rest integer (Nat.le_of_not_lt hin)
  rw [hlay] at hok
  cases hok

/-- A character that is never written is a zero. -/
theorem skip (h : LaidAt enc ptr digits text)
    (hin : (text.length + 1) * (digitSize enc).toNat ≤ 128) :
    LaidAt enc (ptr + digitSize enc) digits (text ++ [0]) := by
  have hptr := h.ptr_eq
  have hzero : wideChar enc 0 = zeros (digitSize enc).toNat := by cases enc <;> rfl
  have hnext : (ptr + digitSize enc).toNat = (text.length + 1) * (digitSize enc).toNat := by
    rw [UInt64.toNat_add, hptr, Nat.succ_mul]; rw [Nat.succ_mul] at hin
    exact Nat.mod_eq_of_lt (by omega)
  refine ⟨by rw [hnext, List.length_append]; rfl, by rw [List.length_append]; exact hin, ?_⟩
  rw [h.digits_eq, List.flatMap_append, List.flatMap_singleton, hzero,
    List.append_assoc, ← zeros_add, List.length_append, List.length_singleton]
  congr 2
  rw [Nat.succ_mul] at hin ⊢
  omega

theorem take_digits (h : LaidAt enc ptr digits text) {k : Nat} (hk : k ≤ text.length) :
    digits.take (k * (digitSize enc).toNat) = (text.take k).flatMap (wideChar enc) := by
  have hlen : (text.take k).length * (digitSize enc).toNat = k * (digitSize enc).toNat := by
    rw [List.length_take, Nat.min_eq_left hk]
  have hsplit :
      digits = (text.take k).flatMap (wideChar enc) ++ ((text.drop k).flatMap (wideChar enc) ++
      zeros (128 - text.length * (digitSize enc).toNat)) := by
    conv_lhs => rw [h.digits_eq, ← List.take_append_drop k text,
      List.flatMap_append, List.append_assoc]
    rw [List.take_append_drop]
  rw [hsplit]
  exact List.take_left' (by rw [length_flatMap_wideChar, hlen])

end LaidAt

/-! ### Appending what has been laid -/

/-- The computation `x` appends the characters `text`, or faults where they do not fit into the
array. -/
def Writes (x : Res (Bool × String × Mem)) (dst : String) (m : Mem) (text : List UInt8) : Prop :=
  Appends x dst m (text.flatMap (wideChar dst.enc)) ∨
    128 < text.length * (digitSize dst.enc).toNat ∧ ∃ e, x = .error e

section
variable {m : Mem} {dst : String} {text head : List UInt8} {ptr : Usz} {digits : List UInt8}

theorem Writes.of_fits {x : Res (Bool × String × Mem)} (h : Writes x dst m text)
    (hfits : text.length * (digitSize dst.enc).toNat ≤ 128) :
    Appends x dst m (text.flatMap (wideChar dst.enc)) :=
  h.resolve_right fun hout => absurd hout.1 (Nat.not_lt.2 hfits)

/-- A computation that returns true has appended the characters. -/
theorem Writes.of_true {x : Res (Bool × String × Mem)} (h : Writes x dst m text)
    {dst' : String} {m' : Mem} (hrun : x = .ok (true, dst', m')) :
    (text.flatMap (wideChar dst.enc)).length ≤ dst.room ∧
      dst' = dst.grown (text.flatMap (wideChar dst.enc)).length ∧
      m' = m.store (dst.base + dst.writeCur) (text.flatMap (wideChar dst.enc)) := by
  rcases h with happ | ⟨-, e, herr⟩
  · rcases Nat.lt_or_ge dst.room (text.flatMap (wideChar dst.enc)).length with hlt | hge
    · obtain ⟨out, -, hfail⟩ := happ.of_lt hlt
      rw [hfail] at hrun
      cases hrun
    · rw [happ.of_le hge] at hrun
      cases hrun
      exact ⟨hge, rfl, rfl⟩
  · rw [herr] at hrun
    cases hrun

theorem writes_setDigit {f : List UInt8 → Res (Bool × String × Mem)} {b : UInt8}
    (h : LaidAt dst.enc ptr digits head) (hlen : head.length + 1 ≤ text.length) (hf : ∀ digits',
      LaidAt dst.enc (ptr + digitSize dst.enc) digits' (head ++ [b]) →
      Writes (f digits') dst m text) :
    Writes (setDigit digits (ptr + digitOffset dst.enc) b >>= f) dst m text := by
  cases hset : setDigit digits (ptr + digitOffset dst.enc) b with
  | ok digits' => exact hf digits' (h.put hset)
  | error e =>
    exact .inr ⟨Nat.lt_of_lt_of_le (h.lt_of_setDigit_error hset) (Nat.mul_le_mul_right _ hlen), e,
      rfl⟩

theorem writes_layDigits {ι : Type} {lastDigit : ι → UInt8} {rest : ι → ι}
    {numDigits : Usz} {integer : ι} {f : List UInt8 → Res (Bool × String × Mem)}
    (h : LaidAt dst.enc ptr digits head)
    (hlen : 128 < (head.length + numDigits.toNat) * (digitSize dst.enc).toNat →
      128 < text.length * (digitSize dst.enc).toNat)
    (hf : ∀ digits', LaidAt dst.enc (ptr + numDigits * digitSize dst.enc) digits'
      (head ++ laidDigits lastDigit rest numDigits.toNat integer) → Writes (f digits') dst m text) :
    Writes (layDigits lastDigit rest ptr numDigits dst.enc integer digits >>= f) dst m text := by
  cases hlay : layDigits lastDigit rest ptr numDigits dst.enc integer digits with
  | ok digits' => exact hf digits' (h.lay hlay)
  | error e => exact .inr ⟨hlen (h.lt_of_layDigits_error hlay), e, rfl⟩

/-- The minus sign always fits. -/
theorem layMinus_ok (minus : Bool) (enc : Encoding) : ∃ ptr digits,
    layMinus minus enc emptyFloatDigits = .ok (ptr, digits) ∧
      LaidAt enc ptr digits (if minus then [45] else []) := by
  have hempty : LaidAt enc 0 emptyFloatDigits [] := LaidAt.empty
  cases minus with
  | true =>
    obtain ⟨digits', hset, hlaid⟩ := hempty.put_ok (by have := (digitSize_le enc).2; simp; omega) 45
    rw [UInt64.zero_add] at hset hlaid
    exact ⟨_, _, by rw [layMinus, if_pos rfl, hset]; rfl, hlaid⟩
  | false => exact ⟨_, _, rfl, hempty⟩

theorem writes_layMinus {minus : Bool} {f : Usz × List UInt8 → Res (Bool × String × Mem)}
    (hf : ∀ ptr digits, LaidAt dst.enc ptr digits (if minus then [45] else []) →
      Writes (f (ptr, digits)) dst m text) :
    Writes (layMinus minus dst.enc emptyFloatDigits >>= f) dst m text := by
  obtain ⟨ptr, digits, hok, hlaid⟩ := layMinus_ok minus dst.enc
  rw [hok]
  exact hf ptr digits hlaid

/-- The size is checked first. -/
theorem writes_of_room (hdst : Writable m dst) {total : Usz} {x : Res (Bool × String × Mem)}
    (htotal : total.toNat ≤ text.length) (hx : Writes x dst m text) :
    Writes (if dst.size - dst.writeCur ≥ total * digitSize dst.enc then x
      else pure (false, dst, m)) dst m text := by
  split_ifs with hroom
  · exact hx
  · refine .inl (Appended.of_lt_of_not_written ?_)
    rw [ge_iff_le, UInt64.le_iff_toNat_le, hdst.toNat_room, UInt64.toNat_mul, Nat.not_le] at hroom
    rw [length_flatMap_wideChar]
    exact Nat.lt_of_lt_of_le hroom (Nat.le_trans (Nat.mod_le _ _) (Nat.mul_le_mul_right _ htotal))

theorem writes_appendToString (hdst : Writable m dst) {total : Usz}
    (h : LaidAt dst.enc ptr digits head) (htotal : total.toNat ≤ head.length)
    (htext : text = head.take total.toNat) :
    Writes (appendToString (localObject digits) 0 (total * digitSize dst.enc) dst m) dst
      m text := by
  have hfits := h.fits
  have hle := Nat.mul_le_mul_right (digitSize dst.enc).toNat htotal
  have hmul : (total * digitSize dst.enc).toNat = total.toNat * (digitSize dst.enc).toNat := by
    rw [UInt64.toNat_mul]; exact Nat.mod_eq_of_lt (by omega)
  have hlen : (total * digitSize dst.enc).toNat ≤ digits.length := by
    rw [hmul, h.length_digits]; omega
  have happ := appendToString_spec hdst ((localObject_reads digits).mono hlen)
  rw [map_getD_range hlen, hmul, h.take_digits htotal, ← htext] at happ
  exact .inl happ

theorem writes_of_laidAt (hdst : Writable m dst) {total : Usz} (h : LaidAt dst.enc ptr digits text)
    (htotal : total.toNat = text.length) :
    Writes (appendToString (localObject digits) 0 (total * digitSize dst.enc) dst m) dst m text :=
  writes_appendToString hdst h (Nat.le_of_eq htotal) (by rw [htotal, List.take_length])

/-! ### What the writers append -/

variable {φ : Type} (F : FloatOps φ) (float : φ) (decimalPlaces : Usz)

/-- The decimal places that are written. -/
def regularPlaces : Usz :=
  clippedPlaces (UInt64.ofNat (digitCount (floatHi F float))) (F.minus float) decimalPlaces

/-- The characters behind the integer part. Where the clipping leaves none for the digits, the byte
of the array that is to hold the dot is appended as it is. -/
def regularTail : List UInt8 :=
  if regularPlaces F float decimalPlaces > 0 then
    46 :: laidDigits uszDigit (· / 10) (regularPlaces F float decimalPlaces).toNat
      (floatDecimal F float (regularPlaces F float decimalPlaces))
  else if decimalPlaces > 0 then [0] else []

/-- The characters that `_AppendFloatToStringRegular` appends. -/
def regularText : List UInt8 :=
  (if F.lt float (F.ofInt 0) then [45] else []) ++
    (laidDigits iszDigit (· / 10) (digitCount (floatHi F float)) (floatHi F float) ++
      regularTail F float decimalPlaces)

/-- The characters of `_AppendFloatToStringInSN` for the scaled number `y` and the exponent. Without
decimal places the last one is cut off. -/
def snText (y : φ) (exp : Usz) (expSign : Isz) : List UInt8 :=
  (if F.lt float (F.ofInt 0) then [45] else []) ++ [F.toChar y + 48, 46] ++
    (if decimalPlaces > 0 then
      laidDigits uszDigit (· / 10) decimalPlaces.toNat (scaledDecimal F y decimalPlaces)
      else [48]) ++ [101, if expSign > 0 then 43 else 45] ++
      (laidDigits uszDigit (· / 10) 3 exp).take (if decimalPlaces > 0 then 3 else 2)

variable {F float decimalPlaces}

theorem length_minus (b : Bool) :
    (if b then [(45 : UInt8)] else []).length = if b then 1 else 0 := by
  cases b <;> rfl

theorem toNat_minus :
    (F.minus float).toNat = (if F.lt float (F.ofInt 0) then [(45 : UInt8)] else []).length := by
  rw [FloatOps.minus, length_minus]
  split_ifs <;> rfl

theorem toNat_minus_le (F : FloatOps φ) (float : φ) : (F.minus float).toNat ≤ 1 := by
  rw [FloatOps.minus]
  split_ifs <;> decide

/-- The number of characters, as the writer counts them. -/
def regularTotal (F : FloatOps φ) (float : φ) (decimalPlaces : Usz) : Usz :=
  if decimalPlaces > 0 then
    UInt64.ofNat (digitCount (floatHi F float)) + F.minus float +
      (regularPlaces F float decimalPlaces + 1)
  else UInt64.ofNat (digitCount (floatHi F float)) + F.minus float

theorem pos_of_regularPlaces (h : regularPlaces F float decimalPlaces > 0) : decimalPlaces > 0 := by
  by_contra hdec
  rw [regularPlaces, clippedPlaces, if_neg hdec] at h
  exact hdec h

theorem length_regularTail : (regularTail F float decimalPlaces).length =
    if decimalPlaces > 0 then (regularPlaces F float decimalPlaces).toNat + 1 else 0 := by
  rw [regularTail]
  by_cases hclip : regularPlaces F float decimalPlaces > 0
  · rw [if_pos hclip, if_pos (pos_of_regularPlaces hclip), List.length_cons, length_laidDigits]
  · have hzero : (regularPlaces F float decimalPlaces).toNat = 0 := by
      rw [gt_iff_lt, UInt64.lt_iff_toNat_lt] at hclip
      simpa using hclip
    rw [if_neg hclip, hzero]
    split_ifs <;> rfl

theorem length_regularText : (regularText F float decimalPlaces).length =
    (F.minus float).toNat +
      (digitCount (floatHi F float) + (regularTail F float decimalPlaces).length) := by
  rw [regularText, List.length_append, List.length_append, length_laidDigits, ← toNat_minus]

theorem toNat_regularTotal :
    (regularTotal F float decimalPlaces).toNat ≤ (regularText F float decimalPlaces).length ∧
    ((regularText F float decimalPlaces).length ≤ 128 →
      (regularTotal F float decimalPlaces).toNat = (regularText F float decimalPlaces).length) := by
  have hcount := digitCount_le (floatHi F float)
  have hminus := toNat_minus_le F float
  have hplaces := (regularPlaces F float decimalPlaces).toNat_lt
  rw [length_regularText, length_regularTail, regularTotal]
  split_ifs <;> simp only [UInt64.toNat_add, UInt64.toNat_ofNat', UInt64.reduceToNat] <;> omega

/-- What comes behind the integer part is laid, and all of it is appended. -/
theorem writes_layFraction (hdst : Writable m dst) {head digits : List UInt8} {ptr total : Usz}
    (h : LaidAt dst.enc ptr digits head) (hhead : head.length ≤ 20)
    (htotal : (head ++ regularTail F float decimalPlaces).length ≤ 128 →
      total.toNat = (head ++ regularTail F float decimalPlaces).length) :
    Writes (layFraction (floatDecimal F float (regularPlaces F float decimalPlaces))
      (regularPlaces F float decimalPlaces)
        ptr dst.enc digits >>= fun digits =>
      appendToString (localObject digits) 0 (total * digitSize dst.enc) dst m) dst m
      (head ++ regularTail F float decimalPlaces) := by
  have hfinish : ∀ ptr digits text, LaidAt dst.enc ptr digits text →
      text = head ++ regularTail F float decimalPlaces →
      Writes (appendToString (localObject digits) 0 (total * digitSize dst.enc) dst m) dst m
        (head ++ regularTail F float decimalPlaces) := by
    rintro ptr digits _ h rfl
    exact writes_of_laidAt hdst h (htotal h.length_le)
  have hlen := @length_regularTail _ F float decimalPlaces
  by_cases hclip : regularPlaces F float decimalPlaces > 0
  · rw [if_pos (pos_of_regularPlaces hclip)] at hlen
    rw [layFraction, if_pos hclip, bind_assoc]
    refine writes_setDigit h ?_ fun digits h1 => writes_layDigits h1 ?_ fun digits h2 =>
      hfinish _ _ _ h2 ?_
    · rw [List.length_append, hlen]
      omega
    · rw [List.length_append, List.length_append, hlen]
      exact fun hout => Nat.lt_of_lt_of_le hout (Nat.mul_le_mul_right _ (by simp; omega))
    · rw [regularTail, if_pos hclip, List.append_assoc, List.singleton_append]
  · rw [layFraction, if_neg hclip]
    by_cases hdec : decimalPlaces > 0
    · have hsize := (digitSize_le dst.enc).2
      have hskip :=
        h.skip (Nat.le_trans (Nat.mul_le_mul (Nat.succ_le_succ hhead) hsize) (by decide))
      exact hfinish _ _ _ hskip (by rw [regularTail, if_neg hclip, if_pos hdec])
    · exact hfinish _ _ _ h (by rw [regularTail, if_neg hclip, if_neg hdec, List.append_nil])

theorem writes_regular (hdst : Writable m dst) :
    Writes (appendFloatToStringRegular F float decimalPlaces dst m) dst m
      (regularText F float decimalPlaces) := by
  obtain ⟨numDigits, hnum, hcount⟩ := Except.wp_iff.1 (numberOfDigits_spec (floatHi F float))
  obtain rfl : numDigits = UInt64.ofNat (digitCount (floatHi F float)) := by
    rw [← hcount, UInt64.ofNat_toNat]
  obtain ⟨htotal, htotal'⟩ := @toNat_regularTotal _ F float decimalPlaces
  have hminus := toNat_minus_le F float
  have hlen := @length_regularText _ F float decimalPlaces
  have hcount19 := (digitCount_le (floatHi F float)).2
  rw [appendFloatToStringRegular, hnum, Except.ok_bind]
  refine writes_of_room hdst htotal (writes_layMinus fun ptr digits h0 =>
    writes_layDigits h0 ?_ fun digits h1 => ?_)
  · rw [hcount, ← toNat_minus]
    exact fun h => Nat.lt_of_lt_of_le h (Nat.mul_le_mul_right _ (by omega))
  · rw [hcount] at h1
    rw [regularText, ← List.append_assoc] at htotal' ⊢
    refine writes_layFraction hdst h1 ?_ htotal'
    rw [List.length_append, length_laidDigits, ← toNat_minus]
    omega

theorem length_snText (y : φ) (exp : Usz) (expSign : Isz) :
    (snText F float decimalPlaces y exp expSign).length =
    (F.minus float).toNat + 2 + decimalPlaces.toNat + 5 := by
  rw [snText]
  simp only [List.length_append, ← toNat_minus]
  by_cases hdec : decimalPlaces > 0
  · rw [if_pos hdec, if_pos hdec, length_laidDigits, List.length_take, length_laidDigits]
    rfl
  · have hzero : decimalPlaces.toNat = 0 := by
      rw [gt_iff_lt, UInt64.lt_iff_toNat_lt] at hdec
      simpa using hdec
    rw [if_neg hdec, if_neg hdec, hzero, List.length_take, length_laidDigits]
    rfl

/-- The exponent is laid, and all but its last `3 - k` digits are appended. -/
theorem writes_layExponent (hdst : Writable m dst) {head digits : List UInt8}
    {ptr total exp : Usz} {expSign : Isz} {k : Nat} (h : LaidAt dst.enc ptr digits head)
    (hk : k ≤ 3) (hhead : k = 3 ∨ head.length ≤ 20)
    (htotal : head.length ≤ 128 → total.toNat = head.length + 2 + k) :
    Writes (layExponent exp expSign ptr dst.enc digits >>= fun digits =>
      appendToString (localObject digits) 0 (total * digitSize dst.enc) dst m) dst m
      (head ++ [101, if expSign > 0 then 43 else 45] ++
        (laidDigits uszDigit (· / 10) 3 exp).take k) := by
  have hsize := (digitSize_le dst.enc).2
  have hthree : (3 : Usz).toNat = 3 := rfl
  have htwo : ptr + digitSize dst.enc * 2 = ptr + digitSize dst.enc + digitSize dst.enc := by grind
  rw [layExponent]
  generalize (if expSign > 0 then (43 : UInt8) else 45) = sign
  have hlen : (head ++ [101, sign]).length = head.length + 2 := List.length_append
  have htext : (head ++ [101, sign] ++ (laidDigits uszDigit (· / 10) 3 exp).take k).length =
      head.length + 2 + k := by
    rw [List.length_append, hlen, List.length_take, length_laidDigits, Nat.min_eq_left hk]
  rw [bind_assoc, htwo, ← UInt64.add_assoc]
  refine writes_setDigit h (by omega) fun digits h1 => ?_
  rw [bind_assoc]
  refine writes_setDigit h1 (by rw [List.length_append, List.length_singleton]; omega)
    fun digits h2 => ?_
  rw [List.append_assoc, List.singleton_append] at h2
  refine writes_layDigits h2 ?_ fun digits h3 => ?_
  · rw [htext, hlen, hthree]
    rcases hhead with rfl | hhead
    · exact id
    · have hle : head.length + 2 + 3 ≤ 25 := by omega
      exact fun hout =>
        absurd hout (Nat.not_lt.2 (Nat.le_trans (Nat.mul_le_mul hle hsize) (by decide)))
  · have hlaid := h3.length_le
    rw [List.length_append, length_laidDigits, hlen, hthree] at hlaid
    have hcount : total.toNat = (head ++ [101, sign]).length + k := by rw [hlen, htotal (by omega)]
    refine writes_appendToString hdst h3 ?_ (by rw [hcount, List.take_length_add_append, hthree])
    rw [List.length_append, length_laidDigits, hcount, hthree]
    exact Nat.add_le_add_left hk _

theorem writes_inSN (hdst : Writable m dst) {y : φ} {exp : Usz} {expSign : Isz}
    (hscaled : scaled F float = .ok (y, exp, expSign)) :
    Writes (appendFloatToStringInSN F float decimalPlaces dst m) dst m
      (snText F float decimalPlaces y exp expSign) := by
  have hlen := @length_snText _ F float decimalPlaces y exp expSign
  have htotal : (F.minus float + 2 + decimalPlaces + 5).toNat ≤
      (snText F float decimalPlaces y exp expSign).length := by
    rw [hlen]
    simp only [UInt64.toNat_add, UInt64.reduceToNat]
    omega
  rw [appendFloatToStringInSN]
  refine writes_of_room hdst htotal (writes_layMinus fun ptr digits h0 => ?_)
  dsimp only
  rw [hscaled, Except.ok_bind]
  dsimp only
  have hplaces := decimalPlaces.toNat_lt
  have hminus := toNat_minus_le F float
  have htwo : ptr + digitSize dst.enc * 2 = ptr + digitSize dst.enc + digitSize dst.enc := by grind
  have hhead : ((if F.lt float (F.ofInt 0) then [45] else []) ++ [F.toChar y + 48, 46]).length =
      (F.minus float).toNat + 2 := by
    rw [List.length_append, ← toNat_minus]
    rfl
  rw [htwo, ← UInt64.add_assoc]
  refine writes_setDigit h0 ?_ fun digits h1 => writes_setDigit h1 ?_ fun digits h2 => ?_
  · rw [← toNat_minus]
    omega
  · rw [List.length_append, ← toNat_minus, List.length_singleton]
    omega
  rw [List.append_assoc, List.singleton_append] at h2
  rw [layDecimals, snText]
  by_cases hdec : decimalPlaces > 0
  · rw [if_pos hdec, if_pos hdec, if_pos hdec, bind_assoc]
    rw [snText, if_pos hdec, if_pos hdec] at hlen
    refine writes_layDigits h2 ?_ fun digits h3 => ?_
    · rw [hlen, hhead]
      exact fun h => Nat.lt_of_lt_of_le h (Nat.mul_le_mul_right _ (by omega))
    · refine writes_layExponent hdst h3 (Nat.le_refl 3) (.inl rfl) fun hle => ?_
      rw [List.length_append, hhead, length_laidDigits] at hle ⊢
      simp only [UInt64.toNat_add, UInt64.reduceToNat]
      omega
  · have hzero : decimalPlaces.toNat = 0 := by
      rw [gt_iff_lt, UInt64.lt_iff_toNat_lt] at hdec
      simpa using hdec
    rw [if_neg hdec, if_neg hdec, if_neg hdec, bind_assoc]
    rw [snText, if_neg hdec, if_neg hdec] at hlen
    refine writes_setDigit h2 (by rw [hlen, hhead]; omega) fun digits h3 => ?_
    refine writes_layExponent hdst h3 (by decide) (.inr ?_) fun _ => ?_
    · rw [List.length_append, hhead, List.length_singleton]
      omega
    · rw [List.length_append, hhead, List.length_singleton]
      simp only [UInt64.toNat_add, UInt64.reduceToNat, hzero]
      omega

end

/-! ### Reading it back -/

/-- Bytes as characters. -/
def asciiChars (text : List UInt8) : List Char := text.map Char.ofUInt8

/-- The body of the loop of `StringToFloat`, for the character `b`. -/
def takeByte (s : FloatState) (b : UInt8) : Option FloatState := floatStep s b.toUInt32

theorem toNat_ofUInt8 (b : UInt8) : (Char.ofUInt8 b).toNat = b.toNat := UInt8.toNat_toUInt32 b

theorem asciiChars_lt {text : List UInt8} (htext : ∀ b ∈ text, b.toNat < 128) :
    ∀ c ∈ asciiChars text, c.toNat < 128 := by
  intro c hc
  obtain ⟨b, hb, rfl⟩ := List.mem_map.1 hc
  rw [toNat_ofUInt8]
  exact htext b hb

theorem map_charByte_asciiChars (text : List UInt8) : (asciiChars text).map charByte = text := by
  rw [asciiChars, List.map_map]
  refine List.map_id'' (fun b => ?_) text
  rw [Function.comp_apply, charByte, toNat_ofUInt8, UInt8.ofNat_toNat]

section
variable {m m' : Mem} {src dst dst' : String} {text : List UInt8}

theorem Writes.holdsAscii {x : Res (Bool × String × Mem)}
    (h : Writes x dst m text) (hdst : Writable m dst)
    (hread : m.Readable (dst.base + dst.writeCur) dst.room) (htext : ∀ b ∈ text, b.toNat < 128)
    (hrun : x = .ok (true, dst', m')) :
    HoldsAscii m' (appendedPart dst (dst'.writeCur - dst.writeCur).toNat) (asciiChars text) := by
  obtain ⟨hfits, rfl, rfl⟩ := h.of_true hrun
  have hroom := hdst.room_eq
  have hbytes : textBytes dst.enc (asciiChars text) = text.flatMap (wideChar dst.enc) := by
    rw [textBytes_eq (asciiChars_lt htext)]
    exact congrArg (List.flatMap (wideChar dst.enc)) (map_charByte_asciiChars text)
  have hlen : ((dst.grown (text.flatMap (wideChar dst.enc)).length).writeCur - dst.writeCur).toNat =
      (text.flatMap (wideChar dst.enc)).length := by
    rw [UInt64.toNat_sub_of_toNat_le (by rw [hdst.toNat_grown hfits]; omega),
      hdst.toNat_grown hfits, Nat.add_sub_cancel_left]
  have h' := holdsAscii_appendedPart hdst (asciiChars_lt htext) (by rw [hbytes]; exact hfits) hread
  rw [hbytes] at h'
  rw [hlen]
  exact h'

theorem foldlM_asciiChars (s : FloatState) :
    (asciiChars text).foldlM (fun s c => floatStep s c.val) s = text.foldlM takeByte s :=
  List.foldlM_map

/-- The reader takes the sign, and then the characters one by one. -/
theorem readFloat_eq {neg : Bool} {b : UInt8} {bs : List UInt8} (hb : b ≠ 45)
    (h : HoldsAscii m src (asciiChars ((if neg then [45] else []) ++ b :: bs))) :
    readFloat src m = .ok (((b :: bs).foldlM takeByte {}).map fun s =>
      (if neg then -1 else 1, s)) := by
  cases neg with
  | true =>
    have hminus : (Char.ofUInt8 45).val = 45 := rfl
    have hidx :
      (digitSize src.enc).toNat = [Char.ofUInt8 45].length * (digitSize src.enc).toNat := by simp
    have hparse := parseChars_eq floatStep [Char.ofUInt8 45] (asciiChars (b :: bs)) h hidx {}
    rw [readFloat, HoldsAscii.getNextChar_head h, Except.ok_bind, if_pos hminus, if_pos hminus]
    dsimp only
    rw [hparse, foldlM_asciiChars]
    rfl
  | false =>
    have hminus : (Char.ofUInt8 b).val ≠ 45 := fun h45 => hb (by
      apply UInt8.toNat_inj.1
      rw [← toNat_ofUInt8]
      exact congrArg UInt32.toNat h45)
    have hidx : (0 : Usz).toNat = ([] : List Char).length * (digitSize src.enc).toNat := by simp
    have hparse := parseChars_eq floatStep [] (asciiChars (b :: bs)) h hidx {}
    rw [readFloat, HoldsAscii.getNextChar_head h, Except.ok_bind, if_neg hminus, if_neg hminus]
    dsimp only
    rw [hparse, foldlM_asciiChars]
    rfl

end

/-! ### The states of the reader -/

section
variable {cs : List Char}

theorem toUInt32_charByte {c : Char} (hc : c.isDigit) : (charByte c).toUInt32 = c.val := by
  apply UInt32.toNat_inj.1
  rw [UInt8.toNat_toUInt32, toNat_charByte (lt_of_isDigit hc)]
  rfl

theorem digit_ne {c : Char} (hc : c.isDigit) : c.val ≠ 45 ∧ c.val ≠ 46 ∧ c.val ≠ 101 := by
  have hdigit := isDigit_iff.1 hc
  refine ⟨?_, ?_, ?_⟩ <;>
  · intro h
    have := congrArg UInt32.toNat h
    have hval : c.toNat = c.val.toNat := rfl
    simp at this
    omega

theorem takeByte_digit {c : Char} (hc : c.isDigit) (s : FloatState) : takeByte s (charByte c) =
    if s.parsingStage = 0 then some { s with integer := s.integer * 10 + c.val.toUInt64 - 48 }
    else if s.parsingStage = 1 then
      some { s with fraction := s.fraction * 10 + c.val.toUInt64 - 48,
                    fractionCount := s.fractionCount + 1 }
    else some { s with exponent := s.exponent * 10 + c.val.toUInt64 - 48 } := by
  obtain ⟨hminus, hdot, he⟩ := digit_ne hc
  have hdigit := (charIsDigit_iff c).2 hc
  rw [takeByte, floatStep, toUInt32_charByte hc, if_neg hdot, if_neg he,
    if_pos hdigit, if_pos hdigit, if_neg he, if_neg hminus, if_pos hdigit]

/-- Digits are collected in a word, in whichever stage. -/
theorem foldlM_takeByte (state : Usz → Nat → FloatState)
    (hstep : ∀ a k c, Char.isDigit c →
      takeByte (state a k) (charByte c) = some (state (a * 10 + c.val.toUInt64 - 48) (k + 1)))
    (hcs : ∀ c ∈ cs, c.isDigit) : (cs.map charByte).foldlM takeByte (state 0 0) =
      some (state (UInt64.ofNat (Nat.ofDigitChars 10 cs 0)) cs.length) := by
  have hdigit : ∀ a k c, Char.isDigit c → takeByte (state (UInt64.ofNat a) k) (charByte c) =
      some (state (UInt64.ofNat (10 * a + (c.toNat - '0'.toNat))) (k + 1)) := by
    intro a k c hc
    rw [hstep _ _ _ hc, digit_step hc]
  have hfold := @foldlM_digits _ (fun s c => takeByte s (charByte c)) cs
    (fun a k => state (UInt64.ofNat a) k) hdigit hcs 0 0
  rw [Nat.zero_add] at hfold
  rw [List.foldlM_map]
  exact hfold

theorem foldlM_integer (hcs : ∀ c ∈ cs, c.isDigit) :
    (cs.map charByte).foldlM takeByte {} =
      some { integer := UInt64.ofNat (Nat.ofDigitChars 10 cs 0) } :=
  foldlM_takeByte (fun a _ => { integer := a }) (fun _ _ _ hc => takeByte_digit hc _) hcs

theorem foldlM_fraction (hcs : ∀ c ∈ cs, c.isDigit) (integer : Usz) :
    (46 :: cs.map charByte).foldlM takeByte { integer := integer } = some {
      integer := integer
      parsingStage := 1
      fraction := UInt64.ofNat (Nat.ofDigitChars 10 cs 0)
      fractionCount := UInt64.ofNat cs.length } :=
  foldlM_takeByte (fun a k => { integer := integer, parsingStage := 1, fraction := a,
                                fractionCount := UInt64.ofNat k })
    (fun a k c hc => (takeByte_digit hc _).trans (by rw [UInt64.ofNat_add]; rfl)) hcs

theorem foldlM_exponent (hcs : ∀ c ∈ cs, c.isDigit) {s : FloatState}
    (hs : s.parsingStage = 1) (hexp : s.exponent = 0) :
    (101 :: 45 :: cs.map charByte).foldlM takeByte s = some { s with
      parsingStage := 2, exponentSign := -1,
      exponent := UInt64.ofNat (Nat.ofDigitChars 10 cs 0) } := by
  have hfold :=
    foldlM_takeByte (fun a _ => { s with parsingStage := 2, exponentSign := -1, exponent := a })
    (fun _ _ _ hc => takeByte_digit hc _) hcs
  have hstart : takeByte s 101 = some { s with parsingStage := 2 } := by
    rw [takeByte, floatStep, hs]; rfl
  have hsign : takeByte { s with parsingStage := 2 } 45 =
      some { s with parsingStage := 2, exponentSign := -1, exponent := 0 } := by
    rw [← hexp]; rfl
  rw [List.foldlM_cons, hstart, Option.bind_eq_bind, Option.bind_some, List.foldlM_cons, hsign]
  exact hfold

/-- The sign of an exponent that is not negative is rejected. -/
theorem foldlM_plus {s : FloatState} (hs : s.parsingStage = 1) (bs : List UInt8) :
    (101 :: 43 :: bs).foldlM takeByte s = none := by
  have hstart : takeByte s 101 = some { s with parsingStage := 2 } := by
    rw [takeByte, floatStep, hs]; rfl
  rw [List.foldlM_cons, hstart]
  rfl

end

end TinyBase
