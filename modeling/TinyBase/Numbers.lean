import TinyBase.Lib.Decimal
import TinyBase.AsciiText

/-!
# Writing integers (`NumberOfDigits`, `AppendUIntToString`, `AppendIntToString`)

The text of a number is laid out in the local array `Digits`, from the last digit to the first, and
copied from there. Its length follows from `NumberOfDigits`, which counts the decimal digits of a
signed word, and stays within the array.
-/

namespace TinyBase

theorem toInt_div_ten (x : Isz) : (x / 10).toInt.natAbs = x.toInt.natAbs / 10 := by
  rw [Int64.toInt_div_of_ne_right _ _ (by decide), Int.natAbs_tdiv]
  rfl

theorem eq_zero_iff_natAbs (x : Isz) : x = 0 ↔ x.toInt.natAbs = 0 := by
  rw [← Int64.toInt_inj, Int.natAbs_eq_zero]
  rfl

theorem natAbs_toInt_le (x : Isz) : x.toInt.natAbs ≤ 2 ^ 63 := by
  have h1 := x.toInt_lt
  have h2 := x.le_toInt
  omega

/-- The decimal digits of the absolute value. -/
def digitCount (x : Isz) : Nat := Nat.log 10 x.toInt.natAbs + 1

theorem digitCount_le (x : Isz) : 0 < digitCount x ∧ digitCount x ≤ 19 := by
  have h := natAbs_toInt_le x
  have hlog : Nat.log 10 x.toInt.natAbs < 19 := Nat.log_lt_of_lt_pow' (by decide) (by omega)
  rw [digitCount]
  omega

/-- One division takes one digit off, the last one excepted. -/
theorem digitCount_div_ten (x : Isz) :
    digitCount x = if x / 10 = 0 then 1 else digitCount (x / 10) + 1 := by
  simp only [digitCount, eq_zero_iff_natAbs, toInt_div_ten, Nat.log_div_base]
  split_ifs with h
  · rw [Nat.log_of_lt (by omega)]
  · have hpos : 0 < Nat.log 10 x.toInt.natAbs := Nat.log_pos (by decide) (by omega)
    omega

theorem numberOfDigits_spec (x : Isz) :
    (numberOfDigits x).wp fun count => count.toNat = digitCount x := by
  refine wp_whileLoop (fun st => st.2.toNat + digitCount st.1 = digitCount x)
    (fun st => st.1.toInt.natAbs) ?_ _ (by simp)
    (Nat.lt_of_le_of_lt (natAbs_toInt_le x) (by decide))
  rintro ⟨integer, count⟩ hinv
  dsimp only at hinv
  have hle := (digitCount_le x).2
  have hdiv := digitCount_div_ten integer
  have hcount : (count + 1).toNat = count.toNat + 1 := UInt64.toNat_add_one (by omega)
  simp only [ne_eq, Except.wp_ite, Except.wp_pure, Ctl.post_next, Ctl.post_done, hcount]
  refine ⟨fun hne => ⟨?_, ?_⟩, fun h0 => ?_⟩
  · rw [if_neg hne] at hdiv
    omega
  · rw [toInt_div_ten]
    have hne' : integer.toInt.natAbs ≠ 0 :=
      fun h => hne (by rw [eq_zero_iff_natAbs, toInt_div_ten, h])
    omega
  · rw [if_pos (not_not.1 h0)] at hdiv
    omega

/-! ### The local array -/

/-- The characters of the last `k` digits of `integer`. -/
def laidDigits {ι : Type} (lastDigit : ι → UInt8) (rest : ι → ι) : Nat → ι → List UInt8
  | 0, _ => []
  | k + 1, integer => laidDigits lastDigit rest k (rest integer) ++ [lastDigit integer]

@[simp] theorem length_laidDigits {ι : Type} (lastDigit : ι → UInt8)
    (rest : ι → ι) (k : Nat) (integer : ι) : (laidDigits lastDigit rest k integer).length = k := by
  induction k generalizing integer with
  | zero => rfl
  | succ k ih => simp [laidDigits, ih]

/-- `k` bytes of the array that have not been written. -/
def zeros (k : Nat) : List UInt8 := List.replicate k 0

@[simp] theorem length_zeros (k : Nat) : (zeros k).length = k := List.length_replicate

theorem zeros_add (j k : Nat) : zeros (j + k) = zeros j ++ zeros k := List.replicate_add ..

theorem setDigit_zeros (enc : Encoding) (b : UInt8) {i : Usz} {pre post : List UInt8}
    (hi : i.toNat = pre.length + (digitOffset enc).toNat) :
    setDigit (pre ++ (zeros (digitSize enc).toNat ++ post)) i b =
      .ok (pre ++ (wideChar enc b ++ post)) := by
  have hoff := (digitSize_le enc).1
  rw [setDigit, if_pos (by rw [hi, List.length_append, List.length_append, length_zeros]; omega),
    hi, List.set_append_right _ _ (Nat.le_add_right _ _), Nat.add_sub_cancel_left,
    List.set_append_left _ _ (by rw [length_zeros]; exact hoff)]
  rfl

/-- The index of the digit that has `k` digits behind it. -/
theorem toNat_digitIdx {ptr numDigits digit : Usz} {enc : Encoding} {k : Nat}
    (hk : numDigits.toNat = digit.toNat + k + 1)
    (hsmall : ptr.toNat + k * (digitSize enc).toNat + 4 ≤ 2 ^ 64) :
    (ptr + ((numDigits - digit - 1) * digitSize enc + digitOffset enc)).toNat =
      ptr.toNat + (k * (digitSize enc).toNat + (digitOffset enc).toNat) := by
  obtain ⟨hoff, hsize⟩ := digitSize_le enc
  have hleft : (numDigits - digit - 1).toNat = k := by
    have h1 : (numDigits - digit).toNat = numDigits.toNat - digit.toNat :=
      UInt64.toNat_sub_of_toNat_le (by omega)
    rw [UInt64.toNat_sub_of_toNat_le (by rw [h1]; simp; omega), h1, hk]
    simp
    omega
  rw [UInt64.toNat_add, UInt64.toNat_add, UInt64.toNat_mul, hleft]
  rw [Nat.mod_eq_of_lt (a := _ * _) (by omega),
    Nat.mod_eq_of_lt (a := _ + (digitOffset enc).toNat) (by omega), Nat.mod_eq_of_lt (by omega)]

/-- The characters of the digits are laid into the zeros behind `pre`. -/
theorem layDigits_eq {ι : Type} (lastDigit : ι → UInt8) (rest : ι → ι)
    {ptr numDigits : Usz} {enc : Encoding} (integer : ι) {pre post : List UInt8}
    (hptr : ptr.toNat = pre.length)
    (hsmall : pre.length + numDigits.toNat * (digitSize enc).toNat + 4 ≤ 2 ^ 64) :
    layDigits lastDigit rest ptr numDigits enc integer
        (pre ++ (zeros (numDigits.toNat * (digitSize enc).toNat) ++ post)) =
      .ok (pre ++
        ((laidDigits lastDigit rest numDigits.toNat integer).flatMap (wideChar enc) ++ post)) := by
  obtain ⟨hoff, hsize⟩ := digitSize_le enc
  rw [← Except.wp_eq]
  refine wp_whileLoop (fun st => st.1 ≤ numDigits ∧ ∃ laid : List UInt8,
      laidDigits lastDigit rest numDigits.toNat integer =
        laidDigits lastDigit rest (numDigits.toNat - st.1.toNat) st.2.1 ++ laid ∧
      st.2.2 = pre ++ (zeros ((numDigits.toNat - st.1.toNat) * (digitSize enc).toNat) ++
        (laid.flatMap (wideChar enc) ++ post)))
    (fun st => numDigits.toNat - st.1.toNat) ?_ _
    ⟨by simp [UInt64.le_iff_toNat_le], [], by simp, by simp⟩
    (Nat.lt_of_le_of_lt (Nat.sub_le _ _) numDigits.toNat_lt)
  rintro ⟨digit, integer', digits⟩ ⟨hle, laid, hlaid, hdigits⟩
  dsimp only at hle hlaid hdigits
  rw [UInt64.le_iff_toNat_le] at hle
  simp only [Except.wp_ite, Except.wp_bind, Except.wp_pure, Ctl.post_next, Ctl.post_done]
  refine ⟨fun hlt => ?_, fun hge => ?_⟩
  · have hlt' := UInt64.lt_iff_toNat_lt.1 hlt
    have hnext : (digit + 1).toNat = digit.toNat + 1 :=
      UInt64.toNat_add_one (by have := numDigits.toNat_lt; omega)
    -- `k` digits are left behind this one
    obtain ⟨k, hk⟩ := Nat.exists_eq_add_of_lt hlt'
    have hk1 : numDigits.toNat - digit.toNat = k + 1 := by omega
    have hk0 : numDigits.toNat - (digit + 1).toNat = k := by omega
    have hmul : k * (digitSize enc).toNat + (digitSize enc).toNat ≤
        numDigits.toNat * (digitSize enc).toNat := by
      rw [← Nat.succ_mul]
      exact Nat.mul_le_mul_right _ (by omega)
    have hidx : (ptr + ((numDigits - digit - 1) * digitSize enc + digitOffset enc)).toNat =
        (pre ++ zeros (k * (digitSize enc).toNat)).length + (digitOffset enc).toNat := by
      rw [toNat_digitIdx hk (by omega), hptr, List.length_append, length_zeros, Nat.add_assoc]
    rw [hk1, Nat.succ_mul, zeros_add, List.append_assoc, ← List.append_assoc] at hdigits
    rw [hdigits, setDigit_zeros enc _ hidx, Except.wp_ok, hk0]
    rw [hk1, laidDigits, List.append_assoc] at hlaid
    refine ⟨⟨UInt64.le_iff_toNat_le.2 (by omega), _, hlaid, ?_⟩, by omega⟩
    rw [List.append_assoc, List.singleton_append, List.flatMap_cons, List.append_assoc]
  · have hk : numDigits.toNat - digit.toNat = 0 := by
      rw [UInt64.lt_iff_toNat_lt] at hge; omega
    rw [hk, laidDigits, List.nil_append] at hlaid
    rw [hdigits, hk, Nat.zero_mul, hlaid]
    rfl

/-! ### The texts -/

/-- The characters of an unsigned number. -/
def uintDigits (integer : Usz) : List UInt8 :=
  laidDigits (fun n : Usz => (n % 10 + 48).toUInt8) (· / 10) (digitCount integer.toInt64) integer

/-- The characters of a signed number. -/
def intDigits (integer : Isz) : List UInt8 :=
  (if integer < 0 then [45] else []) ++
    laidDigits (fun n : Isz => (n % 10 + 48).toUInt64.toUInt8) (· / 10)
    (digitCount integer) (abs integer)

/-- The bytes of the text of an unsigned number. -/
def uintSize (integer : Usz) (enc : Encoding) : Nat :=
  digitCount integer.toInt64 * (digitSize enc).toNat

/-- The bytes of the text of a signed number. -/
def intSize (integer : Isz) (enc : Encoding) : Nat :=
  (digitCount integer + if integer < 0 then 1 else 0) * (digitSize enc).toNat

theorem uintSize_le (integer : Usz) (enc : Encoding) :
    0 < uintSize integer enc ∧ uintSize integer enc ≤ 80 := by
  obtain ⟨hpos, hle⟩ := digitCount_le integer.toInt64
  obtain ⟨hoff, hsize⟩ := digitSize_le enc
  exact ⟨Nat.mul_pos hpos (by omega), Nat.le_trans (Nat.mul_le_mul hle hsize) (by decide)⟩

theorem intSize_le (integer : Isz) (enc : Encoding) :
    0 < intSize integer enc ∧ intSize integer enc ≤ 80 := by
  obtain ⟨hpos, hle⟩ := digitCount_le integer
  obtain ⟨hoff, hsize⟩ := digitSize_le enc
  have hsum : digitCount integer + (if integer < 0 then 1 else 0) ≤ 20 := by split_ifs <;> omega
  exact ⟨Nat.mul_pos (by omega) (by omega), Nat.le_trans (Nat.mul_le_mul hsum hsize) (by decide)⟩

theorem length_uintDigits (integer : Usz) (enc : Encoding) :
    ((uintDigits integer).flatMap (wideChar enc)).length = uintSize integer enc := by
  rw [length_flatMap_wideChar, uintDigits, length_laidDigits, uintSize]

theorem length_intDigits (integer : Isz) (enc : Encoding) :
    ((intDigits integer).flatMap (wideChar enc)).length = intSize integer enc := by
  rw [length_flatMap_wideChar, intDigits, List.length_append, length_laidDigits, intSize,
    Nat.add_comm]
  split_ifs <;> rfl

/-- The sign, and `Ptr` behind it. -/
theorem laySign_eq (integer : Isz) (enc : Encoding) {pre : List UInt8}
    (hpre : pre = (if integer < 0 then [45] else []).flatMap (wideChar enc)) :
    ∃ ptr : Usz, ptr.toNat = pre.length ∧ laySign integer enc emptyDigits =
      .ok (ptr, pre ++ zeros (80 - pre.length)) := by
  obtain ⟨hoff, hsize⟩ := digitSize_le enc
  subst hpre
  rw [laySign]
  split_ifs with hneg
  · refine ⟨digitSize enc, by simp, ?_⟩
    have hzeros : emptyDigits =
        [] ++ (zeros (digitSize enc).toNat ++ zeros (80 - (digitSize enc).toNat)) := by
      rw [← zeros_add, Nat.add_sub_cancel' (by omega)]
      rfl
    rw [hzeros, setDigit_zeros enc 45 (by simp), Except.ok_bind]
    simp
    rfl
  · exact ⟨0, rfl, rfl⟩

/-! ### Appending the array -/

/-- What both functions end with: the first `total` characters of the array. -/
def appendLaid (digits : List UInt8) (total : Usz) (dst : String) (m : Mem) :
    Res (Bool × String × Mem) :=
  if dst.size - dst.writeCur ≥ total then
    appendToString (localObject digits) 0 (total * digitSize dst.enc) dst m
  else pure (false, dst, m)

section
variable {m : Mem} {dst : String}

theorem appendUIntToString_eq (integer : Usz) (dst : String) (m : Mem) :
    ∃ (rest : List UInt8) (total : Usz),
    total.toNat * (digitSize dst.enc).toNat = uintSize integer dst.enc ∧
      appendUIntToString integer dst m =
        appendLaid ((uintDigits integer).flatMap (wideChar dst.enc) ++ rest) total dst m := by
  obtain ⟨numDigits, hnum, hcount⟩ := Except.wp_iff.1 (numberOfDigits_spec integer.toInt64)
  have hfits : numDigits.toNat * (digitSize dst.enc).toNat ≤ 80 := by
    rw [hcount]; exact (uintSize_le integer dst.enc).2
  have hzeros : emptyDigits = [] ++ (zeros (numDigits.toNat * (digitSize dst.enc).toNat) ++
      zeros (80 - numDigits.toNat * (digitSize dst.enc).toNat)) := by
    rw [← zeros_add, Nat.add_sub_cancel' hfits]
    rfl
  have hlay : layDigits (fun n : Usz => (n % 10 + 48).toUInt8) (· / 10) 0 numDigits dst.enc integer
      ([] ++ (zeros (numDigits.toNat * (digitSize dst.enc).toNat) ++
        zeros (80 - numDigits.toNat * (digitSize dst.enc).toNat))) = _ :=
    layDigits_eq _ _ integer rfl (by simp; omega)
  refine ⟨zeros (80 - numDigits.toNat * (digitSize dst.enc).toNat),
    numDigits, by rw [hcount]; rfl, ?_⟩
  rw [appendUIntToString, hnum, Except.ok_bind, hzeros, hlay, hcount]
  rfl

theorem appendIntToString_eq (integer : Isz) (dst : String) (m : Mem) :
    ∃ (rest : List UInt8) (total : Usz),
    total.toNat * (digitSize dst.enc).toNat = intSize integer dst.enc ∧
      appendIntToString integer dst m =
        appendLaid ((intDigits integer).flatMap (wideChar dst.enc) ++ rest) total dst m := by
  obtain ⟨numDigits, hnum, hcount⟩ := Except.wp_iff.1 (numberOfDigits_spec integer)
  obtain ⟨hpos, hle⟩ := digitCount_le integer
  obtain ⟨ptr, hptr, hsign⟩ := laySign_eq integer dst.enc rfl
  generalize hpre : (if integer < 0 then [(45 : UInt8)] else []).flatMap (wideChar dst.enc) = pre
    at hptr hsign
  have hlen : pre.length = (if integer < 0 then 1 else 0) * (digitSize dst.enc).toNat := by
    rw [← hpre, length_flatMap_wideChar]
    split_ifs <;> rfl
  have htotal : (numDigits + if integer < 0 then 1 else 0).toNat =
      digitCount integer + if integer < 0 then 1 else 0 := by
    rw [UInt64.toNat_add, hcount]
    split_ifs
    · exact Nat.mod_eq_of_lt (by simp; omega)
    · exact Nat.mod_eq_of_lt (by simp; omega)
  have hfits : pre.length + numDigits.toNat * (digitSize dst.enc).toNat ≤ 80 := by
    rw [hlen, hcount, ← Nat.add_mul, Nat.add_comm]
    exact (intSize_le integer dst.enc).2
  have hzeros : zeros (80 - pre.length) = zeros (numDigits.toNat * (digitSize dst.enc).toNat) ++
      zeros (80 - pre.length - numDigits.toNat * (digitSize dst.enc).toNat) := by
    rw [← zeros_add, Nat.add_sub_cancel' (by omega)]
  have hlay : layDigits (fun n : Isz => (n % 10 + 48).toUInt64.toUInt8) (· / 10) ptr
      numDigits dst.enc (abs integer)
      (pre ++ (zeros (numDigits.toNat * (digitSize dst.enc).toNat) ++
        zeros (80 - pre.length - numDigits.toNat * (digitSize dst.enc).toNat))) = _ :=
    layDigits_eq _ _ (abs integer) hptr (by omega)
  refine ⟨zeros (80 - pre.length - numDigits.toNat * (digitSize dst.enc).toNat),
    numDigits + if integer < 0 then 1 else 0, by rw [htotal]; rfl, ?_⟩
  rw [appendIntToString, hnum, Except.ok_bind, hsign]
  simp only [Except.ok_bind, hzeros, hlay]
  rw [intDigits, List.flatMap_append, hpre, List.append_assoc, hcount]
  rfl

theorem toNat_mul_digitSize {total : Usz} {enc : Encoding}
    (hfits : total.toNat * (digitSize enc).toNat ≤ 80) :
    (total * digitSize enc).toNat = total.toNat * (digitSize enc).toNat := by
  rw [UInt64.toNat_mul]; exact Nat.mod_eq_of_lt (by omega)

/-- The text in front of the array is appended, or nothing. -/
theorem appendLaid_spec (h : Writable m dst) {text rest : List UInt8} {total : Usz}
    (htotal : total.toNat * (digitSize dst.enc).toNat = text.length) (hfits : text.length ≤ 80) :
    Appends (appendLaid (text ++ rest) total dst m) dst m text := by
  have hmul : (total * digitSize dst.enc).toNat = text.length := by
    rw [toNat_mul_digitSize (by omega), htotal]
  obtain ⟨hoff, hsize⟩ := digitSize_le dst.enc
  rw [appendLaid]
  by_cases hroom : dst.size - dst.writeCur ≥ total
  · have hle : (total * digitSize dst.enc).toNat ≤ (text ++ rest).length := by
      rw [hmul, List.length_append]; exact Nat.le_add_right _ _
    have hcopy := appendToString_spec h ((localObject_reads (text ++ rest)).mono hle)
    rw [map_getD_range hle, hmul, List.take_left] at hcopy
    rw [if_pos hroom]
    exact hcopy
  · -- not even one byte for each character
    have hlt : dst.room < total.toNat := by
      rw [ge_iff_le, UInt64.le_iff_toNat_le, h.toNat_room] at hroom
      omega
    have hge : total.toNat ≤ total.toNat * (digitSize dst.enc).toNat :=
      Nat.le_mul_of_pos_right _ (by omega)
    rw [if_neg hroom]
    exact Appended.of_lt_of_not_written (by omega)

theorem appendUIntToString_appends (h : Writable m dst) (integer : Usz) :
    Appends (appendUIntToString integer dst m) dst m
      ((uintDigits integer).flatMap (wideChar dst.enc)) := by
  obtain ⟨rest, total, htotal, heq⟩ := appendUIntToString_eq integer dst m
  have hlen := length_uintDigits integer dst.enc
  rw [heq]
  exact appendLaid_spec h (htotal.trans hlen.symm)
    (by rw [hlen]; exact (uintSize_le integer dst.enc).2)

theorem appendIntToString_appends (h : Writable m dst) (integer : Isz) :
    Appends (appendIntToString integer dst m) dst m
      ((intDigits integer).flatMap (wideChar dst.enc)) := by
  obtain ⟨rest, total, htotal, heq⟩ := appendIntToString_eq integer dst m
  have hlen := length_intDigits integer dst.enc
  rw [heq]
  exact appendLaid_spec h (htotal.trans hlen.symm)
    (by rw [hlen]; exact (intSize_le integer dst.enc).2)

/-! ### The bounds of the array -/

/-- The run stays in the array, which has 80 bytes: an access behind them is a fault, and where the
run faults it is at a byte of the destination that may not be written. -/
def StaysInDigits (x : Res (Bool × String × Mem)) : Prop := ∀ e, x = .error e → ∃ p, e = .write p

theorem staysInDigits_appendToString {rd : Reader} {src : Ptr} {srcSize : Usz} {f : Nat → UInt8}
    (hsrc : Reads rd src srcSize.toNat f) :
    StaysInDigits (appendToString rd src srcSize dst m) := by
  intro e he
  rw [appendToString, appendDataToBuffer, copyData, Mem.memcpy,
    readBytes_eq hsrc (Nat.le_of_lt srcSize.toNat_lt)] at he
  split_ifs at he with hroom
  · rw [Except.ok_bind] at he
    cases hwrite : m.writeBytes (dst.base + dst.writeCur) ((List.range srcSize.toNat).map f) with
    | ok m' =>
      rw [hwrite] at he
      cases he
    | error e' =>
      rw [hwrite] at he
      cases he
      exact Mem.write_of_writeBytes_error hwrite
  · cases he

theorem staysInDigits_appendLaid {text rest : List UInt8} {total : Usz}
    (htotal : total.toNat * (digitSize dst.enc).toNat = text.length) (hfits : text.length ≤ 80) :
    StaysInDigits (appendLaid (text ++ rest) total dst m) := by
  rw [appendLaid]
  split_ifs with hroom
  · refine staysInDigits_appendToString ((localObject_reads (text ++ rest)).mono ?_)
    rw [toNat_mul_digitSize (by omega), htotal, List.length_append]
    exact Nat.le_add_right _ _
  · exact nofun

/-- Twenty characters of four bytes are the longest text. -/
theorem appendNumber_staysInDigits (dst : String) (m : Mem) :
    (∀ integer : Usz, StaysInDigits (appendUIntToString integer dst m)) ∧
      ∀ integer : Isz, StaysInDigits (appendIntToString integer dst m) := by
  constructor
  · intro integer
    obtain ⟨rest, total, htotal, heq⟩ := appendUIntToString_eq integer dst m
    have hlen := length_uintDigits integer dst.enc
    rw [heq]
    exact staysInDigits_appendLaid (htotal.trans hlen.symm)
      (by rw [hlen]; exact (uintSize_le integer dst.enc).2)
  · intro integer
    obtain ⟨rest, total, htotal, heq⟩ := appendIntToString_eq integer dst m
    have hlen := length_intDigits integer dst.enc
    rw [heq]
    exact staysInDigits_appendLaid (htotal.trans hlen.symm)
      (by rw [hlen]; exact (intSize_le integer dst.enc).2)

end

example : intSize Int64.minValue .utf32be = 80 := by decide

end TinyBase
