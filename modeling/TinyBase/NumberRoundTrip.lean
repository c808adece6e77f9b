import TinyBase.Numbers
import TinyBase.Parse
import TinyBase.Transcode

/-!
# Writing an integer and reading it back

The digits that are laid out are the low digits of the number, in as many places as `NumberOfDigits`
says. That is the number of places of an unsigned number up to 10^19, and of every signed number;
but the digits of the least one are taken off a negative number.
-/

namespace TinyBase
open Decimal

/-- A character as a byte. -/
def charByte (c : Char) : UInt8 := UInt8.ofNat c.toNat

theorem toNat_charByte {c : Char} (hc : c.toNat < 128) : (charByte c).toNat = c.toNat := by
  rw [charByte, UInt8.toNat_ofNat', Nat.mod_eq_of_lt (by omega)]

theorem isDigit_toDigits {n : Nat} : ∀ c ∈ Nat.toDigits 10 n, c.isDigit :=
  fun _ hc => Nat.isDigit_of_mem_toDigits (by decide) (by decide) hc

theorem signed_lt {neg : Bool} {cs : List Char} (hcs : ∀ c ∈ cs, c.isDigit) :
    ∀ c ∈ signed neg cs, c.toNat < 128 := by
  intro c hc
  cases neg with
  | false => exact lt_of_isDigit (hcs c hc)
  | true =>
    rcases List.mem_cons.1 hc with rfl | hc
    · decide
    · exact lt_of_isDigit (hcs c hc)

/-! ### The digits laid out -/

theorem uintLast_eq (n : Usz) :
    (n % 10 + 48).toUInt8 = charByte (Nat.digitChar (n.toNat % 10)) := by
  have hmod : n.toNat % 10 < 10 := Nat.mod_lt _ (by decide)
  apply UInt8.toNat_inj.1
  rw [toNat_charByte (by rw [toNat_digitChar hmod]; omega),
    toNat_digitChar hmod, UInt64.toNat_toUInt8, UInt64.toNat_add, UInt64.toNat_mod]
  simp
  omega

theorem laidDigits_uint (k : Nat) (n : Usz) :
    laidDigits (fun n : Usz => (n % 10 + 48).toUInt8) (· / 10) k n =
      (lowDigits k n.toNat).map charByte := by
  induction k generalizing n with
  | zero => rfl
  | succ k ih =>
    rw [laidDigits, ih, uintLast_eq, UInt64.toNat_div, lowDigits, List.map_append]
    rfl

theorem toInt_mod_ten {x : Isz} {n : Nat} (hx : x.toInt = n) :
    x % 10 + 48 = Int64.ofNat (n % 10 + 48) := by
  have hmod : (x % 10).toInt = (n % 10 : Nat) := by
    rw [Int64.toInt_mod, hx]
    exact (Int.ofNat_tmod n 10).symm
  rw [← Int64.ofInt_eq_ofNat, Int.natCast_add, Int64.ofInt_add, ← hmod, Int64.ofInt_toInt]
  rfl

theorem toInt_div_ten' {x : Isz} {n : Nat} (hx : x.toInt = n) :
    (x / 10).toInt = (n / 10 : Nat) := by
  rw [Int64.toInt_div_of_ne_right _ _ (by decide), hx]
  exact (Int.ofNat_tdiv n 10).symm

theorem laidDigits_int (k : Nat) {x : Isz} {n : Nat} (hx : x.toInt = n) :
    laidDigits (fun n : Isz => (n % 10 + 48).toUInt64.toUInt8) (· / 10) k x =
      (lowDigits k n).map charByte := by
  induction k generalizing x n with
  | zero => rfl
  | succ k ih =>
    have hlast : (x % 10 + 48).toUInt64.toUInt8 = charByte (Nat.digitChar (n % 10)) := by
      rw [toInt_mod_ten hx, charByte, toNat_digitChar (Nat.mod_lt _ (by decide))]
      exact UInt64.toUInt8_ofNat' ..
    rw [laidDigits, ih (toInt_div_ten' hx), hlast, lowDigits, List.map_append]
    rfl

/-! ### Unsigned numbers -/

theorem natAbs_toInt64 (n : Usz) :
    n.toInt64.toInt.natAbs = if n.toNat < 2 ^ 63 then n.toNat else 2 ^ 64 - n.toNat := by
  have hlt := n.toNat_lt
  have hsize : Int64.size = 2 ^ 64 := rfl
  have hint : n.toInt64.toInt = (n.toNat : Int).bmod Int64.size :=
    calc n.toInt64.toInt = (UInt64.ofNat n.toNat).toInt64.toInt := by rw [UInt64.ofNat_toNat]
      _ = (Int64.ofInt n.toNat).toInt := by rw [UInt64.toInt64_ofNat', Int64.ofInt_eq_ofNat]
      _ = (n.toNat : Int).bmod Int64.size := Int64.toInt_ofInt
  rw [hint, hsize, Int.bmod_def]
  split_ifs <;> omega

/-- `NumberOfDigits` takes a signed word. -/
theorem digitCount_toInt64 (n : Usz) :
    digitCount n.toInt64 = (Nat.toDigits 10 n.toNat).length ↔ n.toNat < 10 ^ 19 := by
  have hlt := n.toNat_lt
  have habs := natAbs_toInt64 n
  rw [length_toDigits, digitCount, Nat.add_right_cancel_iff]
  constructor
  · intro h
    by_contra hge
    have h19 : 19 ≤ Nat.log 10 n.toNat := Nat.le_log_of_pow_le (by decide) (Nat.le_of_not_lt hge)
    have hlog := (digitCount_le n.toInt64).2
    rw [digitCount] at hlog
    omega
  · intro h
    split_ifs at habs with hsmall
    · rw [habs]
    · -- both have 19 digits
      have h1 : Nat.log 10 n.toNat = 18 := (Nat.log_eq_iff (.inl (by decide))).2 ⟨by omega, h⟩
      have h2 : Nat.log 10 n.toInt64.toInt.natAbs = 18 :=
        (Nat.log_eq_iff (.inl (by decide))).2 ⟨by omega, by omega⟩
      rw [h1, h2]

theorem digitCount_toInt64_le (n : Usz) :
    digitCount n.toInt64 ≤ (Nat.toDigits 10 n.toNat).length := by
  by_cases h : n.toNat < 10 ^ 19
  · exact Nat.le_of_eq ((digitCount_toInt64 n).2 h)
  · have h19 : 19 ≤ Nat.log 10 n.toNat := Nat.le_log_of_pow_le (by decide) (Nat.le_of_not_lt h)
    have hle := (digitCount_le n.toInt64).2
    rw [length_toDigits]
    omega

/-! ### Signed numbers -/

theorem toInt_abs {x : Isz} (hx : x ≠ Int64.minValue) : (abs x).toInt = x.toInt.natAbs := by
  have hneg : x < 0 ↔ x.toInt < 0 := Int64.lt_iff_toInt_lt
  rw [abs]
  split_ifs with h
  · have hne : x.toInt ≠ -2 ^ 63 := fun heq => hx (Int64.toInt_inj.1 heq)
    have hle := natAbs_toInt_le x
    have hlt := hneg.1 h
    rw [Int64.toInt_neg, Int.bmod_def]
    split_ifs <;> omega
  · have := mt hneg.2 h
    omega

/-- `Abs` leaves the least number negative, and the digits taken off it are no digits. -/
theorem laidDigits_minValue : laidDigits (fun n : Isz => (n % 10 + 48).toUInt64.toUInt8) (· / 10)
    (digitCount Int64.minValue) (abs Int64.minValue) ≠
      (Nat.toDigits 10 Int64.minValue.toInt.natAbs).map charByte := by
  intro h
  have hcount : digitCount Int64.minValue = Nat.log 10 Int64.minValue.toInt.natAbs + 1 := rfl
  rw [hcount, laidDigits, Nat.toDigits_eq_if (by decide), if_neg (by decide), List.map_append] at h
  have hlast := congrArg List.getLast? h
  rw [List.getLast?_concat, List.map_singleton, List.getLast?_concat] at hlast
  exact absurd hlast (by decide)

/-! ### The round trip -/

/-- The computation `x` appends the characters `cs`, from which `read` gets `n` back. -/
def RoundTrip {α : Type} (x : Res (Bool × String × Mem)) (dst : String) (m : Mem) (cs : List Char)
    (read : String → Mem → Res α) (n : α) : Prop :=
  x = .ok (true, dst.grown (textBytes dst.enc cs).length,
    m.store (dst.base + dst.writeCur) (textBytes dst.enc cs)) ∧
    read (appendedPart dst (textBytes dst.enc cs).length)
    (m.store (dst.base + dst.writeCur) (textBytes dst.enc cs)) = .ok n

section
variable {m : Mem} {dst : String} {cs : List Char}

theorem store_inj {p : Ptr} {bs bs' : List UInt8} (hlen : bs.length = bs'.length)
    (hsmall : bs.length ≤ 2 ^ 64) (h : m.store p bs = m.store p bs') : bs = bs' := by
  refine List.ext_getElem hlen fun i hi hi' => ?_
  have hidx : (UInt64.ofNat i).toNat = i := UInt64.toNat_ofNat_of_lt_two_pow (by omega)
  have hbyte : (m.store p bs).byte (p + UInt64.ofNat i) =
    (m.store p bs').byte (p + UInt64.ofNat i) := by rw [h]
  rw [Mem.store_byte_add (by rw [hidx]; exact hi), Mem.store_byte_add (by rw [hidx]; exact hi'),
    hidx] at hbyte
  simpa [List.getD_eq_getElem?_getD, hi, hi'] using hbyte

/-- What is appended can be read as a string of its own. -/
theorem holdsAscii_appendedPart (hdst : Writable m dst) (hcs : ∀ c ∈ cs, c.toNat < 128)
    (hfits : (textBytes dst.enc cs).length ≤ dst.room)
    (hread : m.Readable (dst.base + dst.writeCur) dst.room) :
    HoldsAscii (m.store (dst.base + dst.writeCur) (textBytes dst.enc cs))
      (appendedPart dst (textBytes dst.enc cs).length) cs := by
  have hroom := hdst.room_eq
  have hsmall := hdst.small
  refine ⟨hcs, ?_, Mem.holds_store fun i hi => hread i (by omega)⟩
  show (UInt64.ofNat _).toNat = (textBytes dst.enc cs).length
  rw [UInt64.toNat_ofNat']
  exact Nat.mod_eq_of_lt (by omega)

/-- A number comes back exactly if the digits laid out are its numeral. -/
theorem roundTrip_iff {α : Type} {x : Res (Bool × String × Mem)} {digits : List UInt8}
    {read : String → Mem → Res α} {n : α} (hdst : Writable m dst) (hcs : ∀ c ∈ cs, c.toNat < 128)
    (hfits : (textBytes dst.enc cs).length ≤ dst.room)
    (happ : Appends x dst m (digits.flatMap (wideChar dst.enc))) (hlen : digits.length ≤ cs.length)
    (hback : read (appendedPart dst (textBytes dst.enc cs).length)
      (m.store (dst.base + dst.writeCur) (textBytes dst.enc cs)) = .ok n) :
    RoundTrip x dst m cs read n ↔ digits = cs.map charByte := by
  have hroom := hdst.room_eq
  have hsmall := hdst.small
  have htext : textBytes dst.enc cs = (cs.map charByte).flatMap (wideChar dst.enc) :=
    textBytes_eq hcs
  have hle : (digits.flatMap (wideChar dst.enc)).length ≤ (textBytes dst.enc cs).length := by
    rw [htext, length_flatMap_wideChar, length_flatMap_wideChar, List.length_map]
    exact Nat.mul_le_mul_right _ hlen
  have hrun := happ.of_le (Nat.le_trans hle hfits)
  constructor
  · rintro ⟨heq, -⟩
    rw [hrun] at heq
    injection heq with heq
    injection heq with _ heq
    injection heq with hgrown hstore
    have hcur := congrArg (fun s : String => s.writeCur.toNat) hgrown
    beta_reduce at hcur
    rw [hdst.toNat_grown (Nat.le_trans hle hfits), hdst.toNat_grown hfits] at hcur
    refine flatMap_wideChar_inj ((store_inj ?_ ?_ hstore).trans htext)
    · omega
    · omega
  · intro hdigits
    rw [RoundTrip, hrun, hdigits, ← htext]
    exact ⟨rfl, hback⟩

end

theorem length_signed (neg : Bool) (cs : List Char) :
    (signed neg cs).length = (if neg then 1 else 0) + cs.length := by
  cases neg <;> simp [signed, Nat.add_comm]

theorem map_signed (neg : Bool) (cs : List Char) :
    (signed neg cs).map charByte = (if neg then [45] else []) ++ cs.map charByte := by
  cases neg <;> rfl

theorem valueOf_toDigits (n : Isz) :
    Int64.ofInt (valueOf (n < 0) (Nat.toDigits 10 n.toInt.natAbs)) = n := by
  have hval : valueOf (n < 0) (Nat.toDigits 10 n.toInt.natAbs) = n.toInt := by
    have hneg : n < 0 ↔ n.toInt < 0 := Int64.lt_iff_toInt_lt
    simp only [valueOf, Nat.ofDigitChars_ten_toDigits, decide_eq_true_iff, hneg]
    split_ifs <;> omega
  rw [hval, Int64.ofInt_toInt]

/-- An unsigned number comes back exactly if it is below 10^19. -/
theorem appendUInt_roundTrip_iff (n : Usz) (m : Mem) (dst : String) (hdst : Writable m dst)
    (hread : m.Readable (dst.base + dst.writeCur) dst.room)
    (hfits : (textBytes dst.enc (Nat.toDigits 10 n.toNat)).length ≤ dst.room) :
    RoundTrip (appendUIntToString n dst m) dst m (Nat.toDigits 10 n.toNat) stringToUInt n ↔
      n.toNat < 10 ^ 19 := by
  have hascii : ∀ c ∈ Nat.toDigits 10 n.toNat, c.toNat < 128 :=
    fun c hc => lt_of_isDigit (isDigit_toDigits c hc)
  have hback := stringToUInt_eq (holdsAscii_appendedPart hdst hascii hfits hread) isDigit_toDigits
  rw [Nat.ofDigitChars_ten_toDigits, UInt64.ofNat_toNat] at hback
  have hlen : (uintDigits n).length ≤ (Nat.toDigits 10 n.toNat).length := by
    rw [uintDigits, length_laidDigits]
    exact digitCount_toInt64_le n
  rw [roundTrip_iff hdst hascii hfits (appendUIntToString_appends hdst n) hlen hback, ←
    digitCount_toInt64, uintDigits, laidDigits_uint]
  constructor
  · intro h
    simpa using congrArg List.length h
  · intro h
    rw [h, lowDigits_length_toDigits]

/-- A signed number comes back exactly if it is not the least one. -/
theorem appendInt_roundTrip_iff (n : Isz) (m : Mem) (dst : String) (hdst : Writable m dst)
    (hread : m.Readable (dst.base + dst.writeCur) dst.room)
    (hfits : (textBytes dst.enc (signed (n < 0) (Nat.toDigits 10 n.toInt.natAbs))).length ≤
      dst.room) :
    RoundTrip (appendIntToString n dst m) dst m (signed (n < 0) (Nat.toDigits 10 n.toInt.natAbs))
      stringToInt n ↔ n ≠ Int64.minValue := by
  have hascii : ∀ c ∈ signed (n < 0) (Nat.toDigits 10 n.toInt.natAbs), c.toNat < 128 :=
    signed_lt isDigit_toDigits
  have hback := stringToInt_eq (holdsAscii_appendedPart hdst hascii hfits hread)
    isDigit_toDigits Nat.toDigits_ne_nil
  rw [valueOf_toDigits] at hback
  have hlen : (intDigits n).length ≤ (signed (n < 0) (Nat.toDigits 10 n.toInt.natAbs)).length := by
    rw [length_signed, length_toDigits, intDigits, List.length_append, length_laidDigits]
    split_ifs with h1 h2 <;> simp_all [digitCount]
  rw [roundTrip_iff hdst hascii hfits (appendIntToString_appends hdst n) hlen hback,
    map_signed, intDigits]
  simp only [decide_eq_true_iff, List.append_cancel_left_eq]
  constructor
  · rintro h rfl
    exact laidDigits_minValue h
  · intro h
    rw [laidDigits_int _ (toInt_abs h), digitCount, ← length_toDigits, lowDigits_length_toDigits]

/-! Numbers that come back, and one of each kind that does not. -/

def blankMem : Mem := ⟨fun _ => 0, fun _ => true, fun _ => true⟩

def numberDst (enc : Encoding) : String := { base := 64, writeCur := 0, size := 100, enc := enc }

theorem writable_numberDst (enc : Encoding) : Writable blankMem (numberDst enc) :=
  ⟨(by decide : (0 : Usz) ≤ 100), (by decide : (100 : Usz).toNat + 4 < 2 ^ 64), fun _ _ => rfl⟩

theorem appendUInt_roundTrip_iff_utf16be :
    RoundTrip (appendUIntToString 9223372036854775808 (numberDst .utf16be) blankMem)
    (numberDst .utf16be) blankMem (Nat.toDigits 10 9223372036854775808)
      stringToUInt 9223372036854775808 :=
  (appendUInt_roundTrip_iff 9223372036854775808 blankMem (numberDst .utf16be)
    (writable_numberDst _) (fun _ _ => rfl) (by decide +kernel)).2 (by decide)

theorem appendInt_roundTrip_iff_utf16be :
    RoundTrip (appendIntToString (-42) (numberDst .utf16be) blankMem)
    (numberDst .utf16be) blankMem ['-', '4', '2'] stringToInt (-42) :=
  (appendInt_roundTrip_iff (-42) blankMem (numberDst .utf16be)
    (writable_numberDst _) (fun _ _ => rfl) (by decide +kernel)).2 (by decide)

theorem appendUInt_uszMax :
    ¬ RoundTrip (appendUIntToString uszMax (numberDst .ascii) blankMem) (numberDst .ascii) blankMem
      (Nat.toDigits 10 uszMax.toNat) stringToUInt uszMax ∧
    appendUIntToString uszMax (numberDst .ascii) blankMem =
      .ok (true, (numberDst .ascii).grown 1, blankMem.store 64 [53]) := by
  have hdigits : (uintDigits uszMax).flatMap (wideChar .ascii) = [53] := by decide +kernel
  have happ := appendUIntToString_appends (writable_numberDst .ascii) uszMax
  rw [show (numberDst .ascii).enc = .ascii from rfl, hdigits] at happ
  have hrun := happ.of_le (by decide)
  refine ⟨fun ⟨heq, _⟩ => ?_, hrun⟩
  rw [hrun] at heq
  injection heq with heq
  injection heq with _ heq
  injection heq with hgrown _
  exact absurd (congrArg (fun s : String => s.writeCur.toNat) hgrown) (by decide +kernel)

theorem appendInt_minValue :
    ¬ RoundTrip (appendIntToString Int64.minValue (numberDst .ascii) blankMem)
      (numberDst .ascii) blankMem
        (signed true (Nat.toDigits 10 (2 ^ 63))) stringToInt Int64.minValue ∧
      appendIntToString Int64.minValue (numberDst .ascii) blankMem =
        .ok (true, (numberDst .ascii).grown 20, blankMem.store 64
          [45, 39, 46, 46, 45, 45, 41, 46, 48, 45, 42, 40, 43, 44, 41, 41, 43, 40, 48, 40]) := by
  have hdigits : (intDigits Int64.minValue).flatMap (wideChar .ascii) =
      [45, 39, 46, 46, 45, 45, 41, 46, 48, 45, 42, 40, 43, 44, 41, 41, 43, 40, 48, 40] := by
        decide +kernel
  have happ := appendIntToString_appends (writable_numberDst .ascii) Int64.minValue
  rw [show (numberDst .ascii).enc = .ascii from rfl, hdigits] at happ
  have hrun := happ.of_le (by decide)
  refine ⟨fun ⟨heq, _⟩ => ?_, hrun⟩
  rw [hrun] at heq
  injection heq with heq
  injection heq with _ heq
  injection heq with _ hstore
  exact absurd (congrArg (fun m : Mem => m.byte 65) hstore) (by decide +kernel)

end TinyBase
