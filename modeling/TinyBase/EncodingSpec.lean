import TinyBase.Lib.Bits
import TinyBase.Lib.Unicode
import TinyBase.Encoding

/-!
# Characters and the encoding schemes of Unicode

The packed characters of the library, as numbers, against the bytes the standard prescribes.
-/

namespace TinyBase
open Unicode

/-! ### Packed characters as numbers -/

section
variable (char : UInt32)

theorem toNat_and_low (j : Nat) {m : UInt32} (hm : m.toNat = 2 ^ j - 1) :
    (char &&& m).toNat = char.toNat % 2 ^ j := by
  simpa using char.toNat_and_mask j 0 (by simpa using hm)

theorem toNat_and_low_shiftLeft (j i : Nat) {m s : UInt32} (hm : m.toNat = 2 ^ j - 1)
    (hs : s.toNat = i) (hi : i < 32) (hj : j + i ≤ 32) :
    ((char &&& m) <<< s).toNat = char.toNat % 2 ^ j * 2 ^ i := by
  subst hs
  have hlow := toNat_and_low char j hm
  rw [UInt32.toNat_shiftLeft_of_lt hi, hlow]
  rw [hlow]
  calc char.toNat % 2 ^ j * 2 ^ s.toNat < 2 ^ j * 2 ^ s.toNat :=
        Nat.mul_lt_mul_of_pos_right (Nat.mod_lt _ (Nat.two_pow_pos j)) (Nat.two_pow_pos _)
    _ = 2 ^ (j + s.toNat) := (Nat.pow_add ..).symm
    _ ≤ 2 ^ 32 := Nat.pow_le_pow_right (by decide) hj

/-- The continuation bits of the byte at bit `k`, moved to bit `i`. -/
theorem toNat_and_shiftRight (j i k : Nat) {m s : UInt32} (hm : m.toNat = (2 ^ j - 1) * 2 ^ k)
    (hs : s.toNat + i = k) (hk : k < 32) :
    ((char &&& m) >>> s).toNat = char.toNat / 2 ^ k % 2 ^ j * 2 ^ i := by
  rw [UInt32.toNat_shiftRight_of_lt _ (by omega), char.toNat_and_mask j k hm, ← hs, Nat.pow_add,
    Nat.mul_comm (2 ^ s.toNat), ← Nat.mul_assoc, Nat.mul_div_cancel _ (Nat.two_pow_pos _)]

/-- Six bits under the mark of a continuation byte, or fewer under that of a first byte. -/
theorem toNat_and_or (j : Nat) {m t : UInt32} (hm : m.toNat = 2 ^ j - 1)
    (ht : t.toNat % 2 ^ j = 0) : (char &&& m ||| t).toNat = char.toNat % 2 ^ j + t.toNat := by
  have hlow := toNat_and_low char j hm
  rw [UInt32.toNat_or_of_lt' j (by rw [hlow]; exact Nat.mod_lt _ (Nat.two_pow_pos j)) ht, hlow]

end

theorem toNat_utf8ToUnicode (char : MbChar) : (utf8ToUnicode char).toNat =
    if char.toNat < 0x80 then char.toNat
    else if char.toNat < 0xFFFF then char.toNat % 32 * 64 + char.toNat / 256 % 64
    else if char.toNat < 0xFFFFFF then
      char.toNat % 16 * 4096 + char.toNat / 256 % 64 * 64 + char.toNat / 65536 % 64
    else
      char.toNat % 8 * 262144 + char.toNat / 256 % 64 * 4096 + char.toNat / 65536 % 64 * 64 +
        char.toNat / 16777216 % 64 := by
  have hlt := char.toNat_lt
  have a1 : ((char &&& 0x1f) <<< 6).toNat = char.toNat % 32 * 64 :=
    toNat_and_low_shiftLeft char 5 6 rfl rfl (by decide) (by decide)
  have a2 : ((char &&& 0x3f00) >>> 8).toNat = char.toNat / 256 % 64 * 1 :=
    toNat_and_shiftRight char 6 0 8 rfl rfl (by decide)
  have b1 : ((char &&& 0x0f) <<< 12).toNat = char.toNat % 16 * 4096 :=
    toNat_and_low_shiftLeft char 4 12 rfl rfl (by decide) (by decide)
  have b2 : ((char &&& 0x3f00) >>> 2).toNat = char.toNat / 256 % 64 * 64 :=
    toNat_and_shiftRight char 6 6 8 rfl rfl (by decide)
  have b3 : ((char &&& 0x3f0000) >>> 16).toNat = char.toNat / 65536 % 64 * 1 :=
    toNat_and_shiftRight char 6 0 16 rfl rfl (by decide)
  have c1 : ((char &&& 0x07) <<< 18).toNat = char.toNat % 8 * 262144 :=
    toNat_and_low_shiftLeft char 3 18 rfl rfl (by decide) (by decide)
  have c2 : ((char &&& 0x3F00) <<< 4).toNat = char.toNat / 256 % 64 * 4096 := by
    have hmask : (char &&& 0x3F00).toNat = char.toNat / 256 % 64 * 256 :=
      char.toNat_and_mask 6 8 rfl
    rw [UInt32.toNat_shiftLeft_of_lt (by decide) (by rw [hmask]; simp; omega), hmask]
    simp; omega
  have c3 : ((char &&& 0x3f0000) >>> 10).toNat = char.toNat / 65536 % 64 * 64 :=
    toNat_and_shiftRight char 6 6 16 rfl rfl (by decide)
  have c4 : ((char &&& 0x3f000000) >>> 24).toNat = char.toNat / 16777216 % 64 * 1 :=
    toNat_and_shiftRight char 6 0 24 rfl rfl (by decide)
  simp only [utf8ToUnicode, apply_ite UInt32.toNat, UInt32.lt_iff_toNat_lt, UInt32.reduceToNat]
  split_ifs with h1 h2 h3
  · rfl
  · rw [UInt32.toNat_or_of_lt 6 (by omega) (by omega)]
    omega
  · have h12 : ((char &&& 0x0f) <<< 12 ||| (char &&& 0x3f00) >>> 2).toNat = _ :=
      UInt32.toNat_or_of_lt 12 (by omega) (by omega)
    rw [UInt32.toNat_or_of_lt 6 (by omega) (by omega)]
    omega
  · have h12 : ((char &&& 0x07) <<< 18 ||| (char &&& 0x3F00) <<< 4).toNat = _ :=
      UInt32.toNat_or_of_lt 18 (by omega) (by omega)
    have h123 : ((char &&& 0x07) <<< 18 ||| (char &&& 0x3F00) <<< 4 |||
        (char &&& 0x3f0000) >>> 10).toNat = _ :=
      UInt32.toNat_or_of_lt 12 (by omega) (by omega)
    rw [UInt32.toNat_or_of_lt 6 (by omega) (by omega)]
    omega

theorem toNat_unicodeToUTF8 (char : UChar) : (unicodeToUTF8 char).toNat =
    if char.toNat < 0x80 then char.toNat
    else if char.toNat < 0x800 then (char.toNat % 64 + 128) * 256 + (char.toNat / 64 % 32 + 192)
    else if char.toNat < 0x10000 then
      (char.toNat % 64 + 128) * 65536 + (char.toNat / 64 % 64 + 128) * 256 +
      (char.toNat / 4096 % 16 + 224)
    else
      (char.toNat % 64 + 128) * 16777216 + (char.toNat / 64 % 64 + 128) * 65536 +
        (char.toNat / 4096 % 64 + 128) * 256 + (char.toNat / 262144 % 8 + 240) := by
  have hlt := char.toNat_lt
  have s6 : (char >>> 6).toNat = char.toNat / 64 := char.toNat_shiftRight_of_lt (by decide)
  have s12 : (char >>> 12).toNat = char.toNat / 4096 := char.toNat_shiftRight_of_lt (by decide)
  have s18 : (char >>> 18).toNat = char.toNat / 262144 := char.toNat_shiftRight_of_lt (by decide)
  have cont (y : UInt32) : (y &&& 0x3f ||| 0x80).toNat = y.toNat % 64 + 128 :=
    toNat_and_or y 6 rfl rfl
  have shl (y s : UInt32) (k : Nat) (hs : s.toNat = k) (hk : k ≤ 24) :
      ((y &&& 0x3f ||| 0x80) <<< s).toNat = (y.toNat % 64 + 128) * 2 ^ k := by
    subst hs
    have h24 : (y.toNat % 64 + 128) * 2 ^ s.toNat ≤ (y.toNat % 64 + 128) * 2 ^ 24 :=
      Nat.mul_le_mul_left _ (Nat.pow_le_pow_right (by decide) hk)
    rw [UInt32.toNat_shiftLeft_of_lt (by omega) (by rw [cont]; omega), cont]
  have a1 : ((char &&& 0x3f ||| 0x80) <<< 8).toNat = (char.toNat % 64 + 128) * 256 :=
    shl char 8 8 rfl (by decide)
  have a2 : (char >>> 6 &&& 0x1F ||| 0xc0).toNat = (char >>> 6).toNat % 32 + 192 :=
    toNat_and_or _ 5 rfl rfl
  have b1 : ((char &&& 0x3f ||| 0x80) <<< 16).toNat = (char.toNat % 64 + 128) * 65536 :=
    shl char 16 16 rfl (by decide)
  have b2 : ((char >>> 6 &&& 0x3f ||| 0x80) <<< 8).toNat = ((char >>> 6).toNat % 64 + 128) * 256 :=
    shl _ 8 8 rfl (by decide)
  have b3 : (char >>> 12 &&& 0xf ||| 0xe0).toNat = (char >>> 12).toNat % 16 + 224 :=
    toNat_and_or _ 4 rfl rfl
  have c1 : ((char &&& 0x3f ||| 0x80) <<< 24).toNat = (char.toNat % 64 + 128) * 16777216 :=
    shl char 24 24 rfl (by decide)
  have c2 : ((char >>> 6 &&& 0x3f ||| 0x80) <<< 16).toNat =
      ((char >>> 6).toNat % 64 + 128) * 65536 :=
    shl _ 16 16 rfl (by decide)
  have c3 : ((char >>> 12 &&& 0x3f ||| 0x80) <<< 8).toNat =
      ((char >>> 12).toNat % 64 + 128) * 256 :=
    shl _ 8 8 rfl (by decide)
  have c4 : (char >>> 18 &&& 0x7 ||| 0xf0).toNat = (char >>> 18).toNat % 8 + 240 :=
    toNat_and_or _ 3 rfl rfl
  simp only [unicodeToUTF8, apply_ite UInt32.toNat, UInt32.lt_iff_toNat_lt, UInt32.reduceToNat]
  split_ifs with h1 h2 h3
  · rfl
  · rw [UInt32.toNat_add_of_lt (by omega), a1, a2, s6]
  · rw [UInt32.toNat_add_of_lt (by rw [UInt32.toNat_add_of_lt] <;> omega),
      UInt32.toNat_add_of_lt (by omega), b1, b2, b3, s6, s12]
  · have h12 : ((char &&& 0x3f ||| 0x80) <<< 24 + (char >>> 6 &&& 0x3f ||| 0x80) <<< 16).toNat =
        _ :=
      UInt32.toNat_add_of_lt (by omega)
    have h123 : ((char &&& 0x3f ||| 0x80) <<< 24 + (char >>> 6 &&& 0x3f ||| 0x80) <<< 16 +
        (char >>> 12 &&& 0x3f ||| 0x80) <<< 8).toNat = _ := UInt32.toNat_add_of_lt (by omega)
    rw [UInt32.toNat_add_of_lt (by omega), h123, h12, c1, c2, c3, c4, s6, s12, s18]

/-- The digits of a code point in a packed character of two, three and four bytes. -/
theorem utf8_digits₂ {d0 d1 : Nat} (h0 : d0 < 64) (h1 : d1 < 32) :
    ((d0 + 128) * 256 + (d1 + 192)) % 32 = d1 ∧
      ((d0 + 128) * 256 + (d1 + 192)) / 256 % 64 = d0 := by
  constructor <;> omega

theorem utf8_digits₃ {d0 d1 d2 : Nat} (h0 : d0 < 64) (h1 : d1 < 64) (h2 : d2 < 16) :
    ((d0 + 128) * 65536 + (d1 + 128) * 256 + (d2 + 224)) % 16 = d2 ∧
      ((d0 + 128) * 65536 + (d1 + 128) * 256 + (d2 + 224)) / 256 % 64 = d1 ∧
      ((d0 + 128) * 65536 + (d1 + 128) * 256 + (d2 + 224)) / 65536 % 64 = d0 := by
  refine ⟨?_, ?_, ?_⟩ <;> omega

theorem utf8_digits₄ {d0 d1 d2 d3 : Nat} (h0 : d0 < 64) (h1 : d1 < 64)
    (h2 : d2 < 64) (h3 : d3 < 8) :
    ((d0 + 128) * 16777216 + (d1 + 128) * 65536 + (d2 + 128) * 256 + (d3 + 240)) % 8 = d3 ∧
      ((d0 + 128) * 16777216 + (d1 + 128) * 65536 + (d2 + 128) * 256 + (d3 + 240)) / 256 % 64 = d2 ∧
      ((d0 + 128) * 16777216 + (d1 + 128) * 65536 + (d2 + 128) * 256 + (d3 + 240)) /
      65536 % 64 = d1 ∧
      ((d0 + 128) * 16777216 + (d1 + 128) * 65536 + (d2 + 128) * 256 + (d3 + 240)) / 16777216 %
      64 = d0 := by
  refine ⟨?_, ?_, ?_, ?_⟩ <;> omega

theorem utf8ToUnicode_unicodeToUTF8 {char : UChar} (h : char.toNat < 0x110000) :
    utf8ToUnicode (unicodeToUTF8 char) = char := by
  apply UInt32.toNat_inj.1
  rw [toNat_utf8ToUnicode, toNat_unicodeToUTF8]
  generalize char.toNat = v at h ⊢
  have m0 : v % 64 < 64 := Nat.mod_lt _ (by decide)
  have m1 : v / 64 % 64 < 64 := Nat.mod_lt _ (by decide)
  have m2 : v / 4096 % 64 < 64 := Nat.mod_lt _ (by decide)
  by_cases h1 : v < 0x80
  · simp [h1]
  by_cases h2 : v < 0x800
  · obtain ⟨e1, e0⟩ := utf8_digits₂ m0 (Nat.mod_lt (v / 64) (by decide : 0 < 32))
    simp only [if_neg h1, if_pos h2]
    rw [if_neg (by omega), if_pos (by omega), e1, e0]
    omega
  by_cases h3 : v < 0x10000
  · obtain ⟨e2, e1, e0⟩ := utf8_digits₃ m0 m1 (Nat.mod_lt (v / 4096) (by decide : 0 < 16))
    simp only [if_neg h1, if_neg h2, if_pos h3]
    rw [if_neg (by omega), if_neg (by omega), if_pos (by omega), e2, e1, e0]
    omega
  · obtain ⟨e3, e2, e1, e0⟩ := utf8_digits₄ m0 m1 m2 (Nat.mod_lt (v / 262144) (by decide : 0 < 8))
    simp only [if_neg h1, if_neg h2, if_neg h3]
    rw [if_neg (by omega), if_neg (by omega), if_neg (by omega), e3, e2, e1, e0]
    clear e3 e2 e1 e0
    omega

theorem toNat_unicodeToUTF16 {char : UChar} (h : char.toNat < 0x110000) :
    (unicodeToUTF16 char).toNat =
    if char.toNat < 0x10000 then char.toNat
    else (0xDC00 + (char.toNat - 0x10000) % 0x400) * 0x10000 +
      (0xD800 + (char.toNat - 0x10000) / 0x400) := by
  simp only [unicodeToUTF16, gt_iff_lt, apply_ite UInt32.toNat,
    UInt32.lt_iff_toNat_lt, UInt32.reduceToNat]
  by_cases hlt : char.toNat < 0x10000
  · rw [if_neg (by omega), if_pos hlt]
  · rw [if_pos (by omega), if_neg hlt]
    have hsub : (char - 0x10000).toNat = char.toNat - 0x10000 :=
      UInt32.toNat_sub_of_le _ _ (UInt32.le_iff_toNat_le.2 (by simp; omega))
    have ha : ((char - 0x10000) >>> 10).toNat = (char.toNat - 0x10000) / 0x400 := by
      rw [UInt32.toNat_shiftRight_of_lt _ (by decide), hsub]; rfl
    have hb : ((char - 0x10000) &&& 0x3ff).toNat = (char.toNat - 0x10000) % 0x400 := by
      rw [toNat_and_low _ 10 rfl, hsub]; rfl
    have ha' : ((char - 0x10000) >>> 10 + 0xd800).toNat =
        (char.toNat - 0x10000) / 0x400 + 0xD800 := by
      rw [UInt32.toNat_add_of_lt (by rw [ha]; simp; omega), ha]; rfl
    have hb' : (((char - 0x10000) &&& 0x3ff) + 0xdc00).toNat =
        (char.toNat - 0x10000) % 0x400 + 0xDC00 := by
      rw [UInt32.toNat_add_of_lt (by rw [hb]; simp; omega), hb]; rfl
    have hs : ((((char - 0x10000) &&& 0x3ff) + 0xdc00) <<< 16).toNat =
        ((char.toNat - 0x10000) % 0x400 + 0xDC00) * 0x10000 := by
      rw [UInt32.toNat_shiftLeft_of_lt (by decide) (by rw [hb']; simp; omega), hb']; rfl
    rw [UInt32.toNat_add_of_lt (by omega), hs, ha']
    omega

theorem utf16ToUnicode_unicodeToUTF16 {char : UChar} (h : char.toNat < 0x110000) :
    utf16ToUnicode (unicodeToUTF16 char) = char := by
  apply UInt32.toNat_inj.1
  have hpack := toNat_unicodeToUTF16 h
  generalize unicodeToUTF16 char = x at hpack
  simp only [utf16ToUnicode, gt_iff_lt, apply_ite UInt32.toNat,
    UInt32.lt_iff_toNat_lt, UInt32.reduceToNat]
  by_cases hlt : char.toNat < 0x10000
  · rw [if_pos hlt] at hpack
    rw [if_neg (by omega), hpack]
  · rw [if_neg hlt] at hpack
    rw [if_pos (by omega)]
    have hlow : (x &&& 0xFFFF).toNat = 0xD800 + (char.toNat - 0x10000) / 0x400 := by
      rw [toNat_and_low _ 16 rfl, hpack]; omega
    have hhigh : (x >>> 16 &&& 0xFFFF).toNat = 0xDC00 + (char.toNat - 0x10000) % 0x400 := by
      have hshift : (x >>> 16).toNat = 0xDC00 + (char.toNat - 0x10000) % 0x400 := by
        rw [UInt32.toNat_shiftRight_of_lt _ (by decide), hpack]; simp; omega
      rw [toNat_and_low _ 16 rfl, hshift]; omega
    have ha : ((x &&& 0xFFFF) - 0xD800).toNat = (char.toNat - 0x10000) / 0x400 := by
      rw [UInt32.toNat_sub_of_le _ _ (UInt32.le_iff_toNat_le.2 (by rw [hlow]; simp)), hlow]; simp
    have hb : ((x >>> 16 &&& 0xFFFF) - 0xDC00).toNat = (char.toNat - 0x10000) % 0x400 := by
      rw [UInt32.toNat_sub_of_le _ _ (UInt32.le_iff_toNat_le.2 (by rw [hhigh]; simp)), hhigh]; simp
    simp only [UInt32.toNat_add, UInt32.toNat_mul, ha, hb, UInt32.reduceToNat]
    omega

/-! ### Byte order -/

theorem toNat_flipEndian16 {i : UInt32} (h : i.toNat < 65536) :
    (flipEndian16 i).toNat = i.toNat / 256 + i.toNat % 256 * 256 := by
  have hr : (i >>> 8).toNat = i.toNat / 256 := i.toNat_shiftRight_of_lt (by decide)
  have hl : (i <<< 8).toNat = i.toNat * 256 :=
    UInt32.toNat_shiftLeft_of_lt (by decide) (by simp; omega)
  have h1 : (i >>> 8 &&& (0xFF : UInt32)).toNat = (i >>> 8).toNat % 256 := toNat_and_low _ 8 rfl
  have h2 : (i <<< 8 &&& (0xFF00 : UInt32)).toNat = (i <<< 8).toNat / 256 % 256 * 256 :=
    UInt32.toNat_and_mask _ 8 8 rfl
  rw [flipEndian16, UInt32.toNat_or_of_lt' 8 (by omega) (by omega), h1, h2, hr, hl]
  omega

theorem toNat_flipEndian16x2 (i : UInt32) : (flipEndian16x2 i).toNat =
    i.toNat / 256 % 256 + i.toNat % 256 * 256 + i.toNat / 16777216 * 65536 + i.toNat /
      65536 % 256 * 16777216 := by
  have hlt := i.toNat_lt
  have hr : (i >>> 16).toNat = i.toNat / 65536 := i.toNat_shiftRight_of_lt (by decide)
  have hlow : i.toUInt16.toUInt32.toNat = i.toNat % 65536 := by simp
  have hhigh : (i >>> 16).toUInt16.toUInt32.toNat = i.toNat / 65536 := by
    have : (i >>> 16).toUInt16.toUInt32.toNat = (i >>> 16).toNat % 65536 := by simp
    omega
  have h1 := toNat_flipEndian16 (i := i.toUInt16.toUInt32) (by omega)
  have h2 := toNat_flipEndian16 (i := (i >>> 16).toUInt16.toUInt32) (by omega)
  have h3 : (flipEndian16 (i >>> 16).toUInt16.toUInt32 <<< 16).toNat =
      (flipEndian16 (i >>> 16).toUInt16.toUInt32).toNat * 65536 :=
    UInt32.toNat_shiftLeft_of_lt (by decide) (by rw [h2, hhigh]; simp; omega)
  rw [flipEndian16x2, UInt32.toNat_or_of_lt' 16 (by omega) (by omega), h3, h1, h2, hlow, hhigh]
  omega

theorem toNat_flipEndian32 (i : UInt32) : (flipEndian32 i).toNat =
    i.toNat / 16777216 + i.toNat / 65536 % 256 * 256 + i.toNat / 256 % 256 * 65536 +
      i.toNat % 256 * 16777216 := by
  have hlt := i.toNat_lt
  have r24 : (i >>> 24).toNat = i.toNat / 16777216 := i.toNat_shiftRight_of_lt (by decide)
  have r8 : (i >>> 8).toNat = i.toNat / 256 := i.toNat_shiftRight_of_lt (by decide)
  have l8 : (i <<< 8).toNat = i.toNat * 256 % 4294967296 := by simp [Nat.shiftLeft_eq]
  have l24 : (i <<< 24).toNat = i.toNat * 16777216 % 4294967296 := by simp [Nat.shiftLeft_eq]
  have h1 : (i >>> 24 &&& (0xFF : UInt32)).toNat = (i >>> 24).toNat % 256 := toNat_and_low _ 8 rfl
  have h2 : (i >>> 8 &&& (0xFF00 : UInt32)).toNat = (i >>> 8).toNat / 256 % 256 * 256 :=
    UInt32.toNat_and_mask _ 8 8 rfl
  have h3 : (i <<< 8 &&& (0xFF0000 : UInt32)).toNat = (i <<< 8).toNat / 65536 % 256 * 65536 :=
    UInt32.toNat_and_mask _ 8 16 rfl
  have h4 : (i <<< 24 &&& (0xFF000000 : UInt32)).toNat = (i <<< 24).toNat /
      16777216 % 256 * 16777216 :=
    UInt32.toNat_and_mask _ 8 24 rfl
  rw [r24] at h1
  rw [r8] at h2
  rw [l8] at h3
  rw [l24] at h4
  have h12 : (i >>> 24 &&& (0xFF : UInt32) ||| i >>> 8 &&& (0xFF00 : UInt32)).toNat = _ :=
    UInt32.toNat_or_of_lt' 8 (by omega) (by omega)
  have h123 : (i >>> 24 &&& (0xFF : UInt32) ||| i >>> 8 &&& (0xFF00 : UInt32) |||
      i <<< 8 &&& (0xFF0000 : UInt32)).toNat = _ := UInt32.toNat_or_of_lt' 16 (by omega) (by omega)
  rw [flipEndian32, UInt32.toNat_or_of_lt' 24 (by omega) (by omega), h123, h12, h1, h2, h3, h4]
  clear h123 h12 h1 h2 h3 h4 l8 l24 r8 r24
  omega

theorem word_digits {d0 d1 d2 : Nat} (d3 : Nat) (h0 : d0 < 256) (h1 : d1 < 256) (h2 : d2 < 256) :
    (d0 + d1 * 256 + d2 * 65536 + d3 * 16777216) % 256 = d0 ∧
      (d0 + d1 * 256 + d2 * 65536 + d3 * 16777216) / 256 % 256 = d1 ∧
      (d0 + d1 * 256 + d2 * 65536 + d3 * 16777216) / 65536 % 256 = d2 ∧
      (d0 + d1 * 256 + d2 * 65536 + d3 * 16777216) / 16777216 = d3 := by
  refine ⟨?_, ?_, ?_, ?_⟩ <;> omega

/-- `_AdjustEndianness` is its own inverse. -/
theorem adjustEndianness_adjustEndianness (x : MbChar) (E : Encoding) :
    adjustEndianness (adjustEndianness x E) E = x := by
  have hlt := x.toNat_lt
  have m0 : x.toNat % 256 < 256 := Nat.mod_lt _ (by decide)
  have m1 : x.toNat / 256 % 256 < 256 := Nat.mod_lt _ (by decide)
  have m2 : x.toNat / 65536 % 256 < 256 := Nat.mod_lt _ (by decide)
  have m3 : x.toNat / 16777216 < 256 := by omega
  cases E with
  | utf16be =>
    apply UInt32.toNat_inj.1
    show (flipEndian16x2 (flipEndian16x2 x)).toNat = x.toNat
    obtain ⟨e0, e1, e2, e3⟩ := word_digits (x.toNat / 65536 % 256) m1 m0 m3
    rw [toNat_flipEndian16x2, toNat_flipEndian16x2, e0, e1, e2, e3]
    clear e0 e1 e2 e3
    omega
  | utf32be =>
    apply UInt32.toNat_inj.1
    show (flipEndian32 (flipEndian32 x)).toNat = x.toNat
    obtain ⟨e0, e1, e2, e3⟩ := word_digits (x.toNat % 256) m3 m2 m1
    rw [toNat_flipEndian32, toNat_flipEndian32, e0, e1, e2, e3]
    clear e0 e1 e2 e3
    omega
  | _ => rfl

/-! ### The bytes of a character -/

/-- The bytes of the character `x` as they are in memory. -/
def charBytes (x : MbChar) (E : Encoding) : List UInt8 :=
  leBytes (getMultibyteCharSize x E).toNat (adjustEndianness x E).toNat

@[simp] theorem length_charBytes (x : MbChar) (E : Encoding) :
    (charBytes x E).length = (getMultibyteCharSize x E).toNat := length_leBytes ..

theorem getMultibyteCharSize_le (x : MbChar) (E : Encoding) :
    0 < (getMultibyteCharSize x E).toNat ∧ (getMultibyteCharSize x E).toNat ≤ 4 := by
  cases E <;> simp only [getMultibyteCharSize] <;> (try split_ifs) <;> decide

theorem adjustEndianness_lt (x : MbChar) (E : Encoding) :
    (adjustEndianness x E).toNat < 256 ^ (getMultibyteCharSize x E).toNat := by
  have hx := x.toNat_lt
  have hx' := (adjustEndianness x E).toNat_lt
  cases E <;>
    simp only [getMultibyteCharSize, adjustEndianness, UInt32.le_iff_toNat_le, UInt32.reduceToNat]
      at hx' ⊢
  case utf16be =>
    split_ifs with h
    · have := toNat_flipEndian16x2 x
      simp only [UInt32.reduceToNat]
      omega
    · simpa using hx'
  all_goals (try split_ifs) <;> simp <;> omega

theorem toNat_packBytes (f : Nat → UInt8) (size : UInt32) : (packBytes f size).toNat =
    if size = 1 then (f 0).toNat
    else if size = 2 then (f 1).toNat * 256 + (f 0).toNat
    else if size = 3 then (f 2).toNat * 65536 + (f 1).toNat * 256 + (f 0).toNat
    else if size = 4 then
      (f 3).toNat * 16777216 + (f 2).toNat * 65536 + (f 1).toNat * 256 + (f 0).toNat
    else 0 := by
  have h0 := (f 0).toNat_lt
  have h1 := (f 1).toNat_lt
  have h2 := (f 2).toNat_lt
  have h3 := (f 3).toNat_lt
  have e0 : (f 0).toUInt32.toNat = (f 0).toNat := UInt8.toNat_toUInt32 _
  have shl (i k : Nat) (s : UInt32) (hs : s.toNat = k) (hk : k ≤ 24) :
      ((f i).toUInt32 <<< s).toNat = (f i).toNat * 2 ^ k := by
    subst hs
    have hi := (f i).toNat_lt
    have hpow : 2 ^ s.toNat ≤ 2 ^ 24 := Nat.pow_le_pow_right (by decide) hk
    rw [UInt32.toNat_shiftLeft_of_lt (by omega), UInt8.toNat_toUInt32]
    rw [UInt8.toNat_toUInt32]
    calc (f i).toNat * 2 ^ s.toNat ≤ (f i).toNat * 2 ^ 24 := Nat.mul_le_mul_left _ hpow
      _ < 2 ^ 32 := by omega
  have e1 : ((f 1).toUInt32 <<< 8).toNat = (f 1).toNat * 256 := shl 1 8 8 rfl (by decide)
  have e2 : ((f 2).toUInt32 <<< 16).toNat = (f 2).toNat * 65536 := shl 2 16 16 rfl (by decide)
  have e3 : ((f 3).toUInt32 <<< 24).toNat = (f 3).toNat * 16777216 := shl 3 24 24 rfl (by decide)
  have h21 : ((f 2).toUInt32 <<< 16 ||| (f 1).toUInt32 <<< 8).toNat = _ :=
    UInt32.toNat_or_of_lt 16 (by omega) (by omega)
  have h32 : ((f 3).toUInt32 <<< 24 ||| (f 2).toUInt32 <<< 16).toNat = _ :=
    UInt32.toNat_or_of_lt 24 (by omega) (by omega)
  have h321 : ((f 3).toUInt32 <<< 24 ||| (f 2).toUInt32 <<< 16 ||| (f 1).toUInt32 <<< 8).toNat =
      _ :=
    UInt32.toNat_or_of_lt 16 (by omega) (by omega)
  simp only [packBytes, apply_ite UInt32.toNat]
  split_ifs
  · exact e0
  · rw [UInt32.toNat_or_of_lt 8 (by omega) (by omega), e1, e0]
  · rw [UInt32.toNat_or_of_lt 8 (by omega) (by omega), h21, e2, e1, e0]
  · rw [UInt32.toNat_or_of_lt 8 (by omega) (by omega), h321, h32, e3, e2, e1, e0]
  · rfl

theorem packBytes_leBytes {f : Nat → UInt8} {size y : UInt32}
    (hsize : 0 < size.toNat ∧ size.toNat ≤ 4) (hy : y.toNat < 256 ^ size.toNat)
    (hf : ∀ i < size.toNat, f i = UInt8.ofNat (y.toNat / 256 ^ i)) : packBytes f size = y := by
  apply UInt32.toNat_inj.1
  have hf' : ∀ i < size.toNat, (f i).toNat = y.toNat / 256 ^ i % 256 := fun i hi => by
    rw [hf i hi, UInt8.toNat_ofNat']
  rw [toNat_packBytes]
  obtain h | h | h | h : size.toNat = 1 ∨ size.toNat = 2 ∨ size.toNat = 3 ∨ size.toNat = 4 := by
    omega
  all_goals
    rw [h] at hy hf'
    have h0 := hf' 0 (by decide)
    simp only [← UInt32.toNat_inj, h, UInt32.reduceToNat, Nat.reduceEqDiff, if_true, if_false]
  · omega
  · have h1 := hf' 1 (by decide)
    omega
  · have h1 := hf' 1 (by decide)
    have h2 := hf' 2 (by decide)
    omega
  · have h1 := hf' 1 (by decide)
    have h2 := hf' 2 (by decide)
    have h3 := hf' 3 (by decide)
    omega

/-! ### Reading a character -/

section
variable {rd : Reader} {p : Ptr} {f : Nat → UInt8} {E : Encoding}

theorem nextCharSize_le (f : Nat → UInt8) (E : Encoding) :
    0 < (nextCharSize f E).toNat ∧ (nextCharSize f E).toNat ≤ 4 := by
  cases E <;> simp only [nextCharSize, utf8CharSize, utf16LECharSize,
    utf16BECharSize, utf16CharSize] <;> (try split_ifs) <;> decide

theorem getNextCharSize_eq (h : Reads rd p (nextCharSize f E).toNat f) :
    getNextCharSize rd p E = .ok (nextCharSize f E) := by
  have hpos := (nextCharSize_le f E).1
  cases E with
  | ascii | utf32le | utf32be => rfl
  | utf8 | utf16be => rw [getNextCharSize, h.zero hpos]; rfl
  | utf16le =>
    have h2 : 1 < (nextCharSize f .utf16le).toNat := by
      simp only [nextCharSize, utf16LECharSize, utf16CharSize]; split_ifs <;> decide
    rw [getNextCharSize, h 1 h2]; rfl

theorem packBytes_congr {g : Nat → UInt8} {size : UInt32} (h : ∀ i < size.toNat, f i = g i) :
    packBytes f size = packBytes g size := by
  simp only [packBytes]
  split_ifs with h1 h2 h3 h4
  · subst h1; rw [h 0 (by decide)]
  · subst h2; rw [h 0 (by decide), h 1 (by decide)]
  · subst h3; rw [h 0 (by decide), h 1 (by decide), h 2 (by decide)]
  · subst h4; rw [h 0 (by decide), h 1 (by decide), h 2 (by decide), h 3 (by decide)]
  · rfl

/-- `GetNextChar` reads no more bytes than `GetNextCharSize` says. -/
theorem getNextChar_eq (h : Reads rd p (nextCharSize f E).toNat f) :
    getNextChar rd p E = .ok (nextChar f E) := by
  have hle : (nextCharSize f E).toNat ≤ 2 ^ 64 := Nat.le_trans (nextCharSize_le f E).2 (by decide)
  have hpack :
      packBytes (((List.range (nextCharSize f E).toNat).map f).getD · 0) (nextCharSize f E) =
      packBytes f (nextCharSize f E) :=
    packBytes_congr fun i hi => by simp [List.getD_eq_getElem?_getD, hi]
  rw [getNextChar, getNextCharSize_eq h, Except.ok_bind, readBytes_eq h hle, Except.ok_bind, hpack]
  rfl

/-- Reading the bytes of a character whose two sizes agree gives the character. -/
theorem nextChar_charBytes {x : MbChar} (hsize : nextCharSize f E = getMultibyteCharSize x E)
    (hf : ∀ i < (getMultibyteCharSize x E).toNat, f i = (charBytes x E).getD i 0) :
    nextChar f E = x := by
  rw [nextChar, hsize, packBytes_leBytes (getMultibyteCharSize_le x E) (adjustEndianness_lt x E),
    adjustEndianness_adjustEndianness]
  intro i hi
  rw [hf i hi, charBytes, getD_leBytes hi]

end

/-! ### The encoding schemes -/

/-- The encoding that stands for a scheme. -/
def encodingOf : Form → Encoding
  | .utf8 => .utf8
  | .utf16le => .utf16le
  | .utf16be => .utf16be
  | .utf32le => .utf32le
  | .utf32be => .utf32be

/-- The character of the scheme `F` for the scalar value `c`. -/
def packed (F : Form) (c : Char) : MbChar := encodeChar c.val (encodingOf F)

theorem scalar_lt (c : Char) : c.val.toNat < 0x110000 := by
  have := scalar c
  omega

/-- `DecodeChar` undoes `EncodeChar` on scalar values. -/
theorem decodeChar_packed (F : Form) (c : Char) :
    decodeChar (packed F c) (encodingOf F) = c.val := by
  cases F with
  | utf8 => exact utf8ToUnicode_unicodeToUTF8 (scalar_lt c)
  | utf16le | utf16be => exact utf16ToUnicode_unicodeToUTF16 (scalar_lt c)
  | utf32le | utf32be => rfl

theorem charBytes_utf8 (x : MbChar) : charBytes x .utf8 =
    if x.toNat ≤ 0xFF then leBytes 1 x.toNat else if x.toNat ≤ 0xFFFF then leBytes 2 x.toNat
    else if x.toNat ≤ 0xFFFFFF then leBytes 3 x.toNat else leBytes 4 x.toNat := by
  simp only [charBytes, getMultibyteCharSize, adjustEndianness,
    UInt32.le_iff_toNat_le, UInt32.reduceToNat]
  split_ifs <;> rfl

theorem bytes_utf8 (c : Char) : Form.utf8.bytes c = charBytes (unicodeToUTF8 c.val) .utf8 := by
  have hv := scalar_lt c
  have hx := toNat_unicodeToUTF8 c.val
  rw [charBytes_utf8]
  show String.utf8EncodeChar c = _
  simp only [String.utf8EncodeChar]
  generalize (unicodeToUTF8 c.val).toNat = x at hx
  generalize c.val.toNat = v at hv hx
  by_cases h1 : v < 0x80
  · rw [if_pos h1] at hx
    subst hx
    rw [if_pos (by omega), if_pos (by omega)]
    simp [leBytes]
  rw [if_neg h1] at hx
  rw [if_neg (by omega)]
  by_cases h2 : v < 0x800
  · obtain rfl : x = v / 64 % 32 + 192 + (v % 64 + 128 + 0 * 256) * 256 := by
      rw [hx, if_pos h2]; omega
    rw [if_pos (by omega), if_neg (by omega), if_pos (by omega),
      leBytes_succ (by omega), leBytes_succ (by omega), leBytes_zero]
  rw [if_neg h2] at hx
  rw [if_neg (by omega)]
  by_cases h3 : v < 0x10000
  · obtain rfl :
      x = v / 4096 % 16 + 224 + (v / 64 % 64 + 128 + (v % 64 + 128 + 0 * 256) * 256) * 256 := by
      rw [hx, if_pos h3]; omega
    rw [if_pos (by omega), if_neg (by omega), if_neg (by omega),
      if_pos (by omega), leBytes_succ (by omega),
      leBytes_succ (by omega), leBytes_succ (by omega), leBytes_zero]
  · obtain rfl : x = v / 262144 % 8 + 240 + (v / 4096 % 64 + 128 + (v / 64 % 64 + 128 +
        (v % 64 + 128 + 0 * 256) * 256) * 256) * 256 := by
      rw [hx, if_neg h3]; omega
    rw [if_neg (by omega), if_neg (by omega), if_neg (by omega),
      if_neg (by omega), leBytes_succ (by omega),
      leBytes_succ (by omega), leBytes_succ (by omega), leBytes_succ (by omega), leBytes_zero]

theorem charBytes_utf16le (x : MbChar) :
    charBytes x .utf16le = if x.toNat ≤ 0xFFFF then leBytes 2 x.toNat else leBytes 4 x.toNat := by
  simp only [charBytes, getMultibyteCharSize, adjustEndianness,
    UInt32.le_iff_toNat_le, UInt32.reduceToNat]
  split_ifs <;> rfl

theorem charBytes_utf16be (x : MbChar) : charBytes x .utf16be =
    if x.toNat ≤ 0xFFFF then leBytes 2 (flipEndian16x2 x).toNat
      else leBytes 4 (flipEndian16x2 x).toNat := by
  simp only [charBytes, getMultibyteCharSize, adjustEndianness,
    UInt32.le_iff_toNat_le, UInt32.reduceToNat]
  split_ifs <;> rfl

theorem bytes_utf16le (c : Char) :
    Form.utf16le.bytes c = charBytes (unicodeToUTF16 c.val) .utf16le := by
  have hv := scalar_lt c
  have hx := toNat_unicodeToUTF16 hv
  rw [charBytes_utf16le]
  show (utf16Units c).flatMap (leBytes 2) = _
  simp only [utf16Units]
  generalize (unicodeToUTF16 c.val).toNat = x at hx
  generalize c.val.toNat = v at hv hx
  by_cases h : v < 0x10000
  · rw [if_pos h] at hx
    rw [if_pos h, if_pos (by omega), hx]
    simp
  · rw [if_neg h] at hx
    rw [if_neg h, if_neg (by omega)]
    obtain ⟨a0, a1, h0, h1, ha⟩ : ∃ a0 a1, a0 < 256 ∧ a1 < 256 ∧
      0xD800 + (v - 0x10000) / 0x400 = a0 + a1 * 256 :=
      ⟨_ % 256, _ / 256, Nat.mod_lt _ (by decide), by omega, (Nat.mod_add_div' _ 256).symm⟩
    obtain ⟨b0, b1, k0, k1, hb⟩ : ∃ b0 b1, b0 < 256 ∧ b1 < 256 ∧
      0xDC00 + (v - 0x10000) % 0x400 = b0 + b1 * 256 :=
      ⟨_ % 256, _ / 256, Nat.mod_lt _ (by decide), by omega, (Nat.mod_add_div' _ 256).symm⟩
    obtain rfl : x = a0 + a1 * 256 + b0 * 65536 + b1 * 16777216 := by omega
    rw [ha, hb, leBytes_four h0 h1 k0 k1]
    simp [leBytes_two h0 h1, leBytes_two k0 k1]

theorem bytes_utf16be (c : Char) :
    Form.utf16be.bytes c = charBytes (unicodeToUTF16 c.val) .utf16be := by
  have hv := scalar_lt c
  have hx := toNat_unicodeToUTF16 hv
  have hy := toNat_flipEndian16x2 (unicodeToUTF16 c.val)
  rw [charBytes_utf16be]
  show (utf16Units c).flatMap (fun u => (leBytes 2 u).reverse) = _
  simp only [utf16Units]
  generalize (flipEndian16x2 (unicodeToUTF16 c.val)).toNat = y at hy
  generalize (unicodeToUTF16 c.val).toNat = x at hx hy
  generalize c.val.toNat = v at hv hx
  by_cases h : v < 0x10000
  · rw [if_pos h] at hx
    rw [if_pos h, if_pos (by omega)]
    have h0 : v % 256 < 256 := Nat.mod_lt _ (by decide)
    have h1 : v / 256 < 256 := by omega
    obtain rfl : y = v / 256 + v % 256 * 256 := by omega
    have hswap : leBytes 2 v = [UInt8.ofNat (v % 256), UInt8.ofNat (v / 256)] := by
      rw [← leBytes_two h0 h1, Nat.mod_add_div']
    rw [leBytes_two h1 h0]
    simp only [List.flatMap_cons, List.flatMap_nil, hswap]
    rfl
  · rw [if_neg h] at hx
    rw [if_neg h, if_neg (by omega)]
    obtain ⟨a0, a1, h0, h1, ha⟩ : ∃ a0 a1, a0 < 256 ∧ a1 < 256 ∧
      0xD800 + (v - 0x10000) / 0x400 = a0 + a1 * 256 :=
      ⟨_ % 256, _ / 256, Nat.mod_lt _ (by decide), by omega, (Nat.mod_add_div' _ 256).symm⟩
    obtain ⟨b0, b1, k0, k1, hb⟩ : ∃ b0 b1, b0 < 256 ∧ b1 < 256 ∧
      0xDC00 + (v - 0x10000) % 0x400 = b0 + b1 * 256 :=
      ⟨_ % 256, _ / 256, Nat.mod_lt _ (by decide), by omega, (Nat.mod_add_div' _ 256).symm⟩
    obtain rfl : x = a0 + a1 * 256 + b0 * 65536 + b1 * 16777216 := by omega
    obtain ⟨e0, e1, e2, e3⟩ := word_digits b1 h0 h1 k0
    have hdiv : (a0 + a1 * 256 + b0 * 65536 + b1 * 16777216) / 16777216 = b1 := e3
    rw [e0, e1, e2, e3] at hy
    obtain rfl : y = a1 + a0 * 256 + b1 * 65536 + b0 * 16777216 := by omega
    rw [ha, hb, leBytes_four h1 h0 k1 k0]
    simp [leBytes_two h0 h1, leBytes_two k0 k1]

theorem bytes_utf32be (c : Char) : Form.utf32be.bytes c = charBytes c.val .utf32be := by
  have hv := c.val.toNat_lt
  show (leBytes 4 c.val.toNat).reverse = leBytes 4 (flipEndian32 c.val).toNat
  rw [toNat_flipEndian32]
  generalize c.val.toNat = v at hv
  have h0 : v % 256 < 256 := Nat.mod_lt _ (by decide)
  have h1 : v / 256 % 256 < 256 := Nat.mod_lt _ (by decide)
  have h2 : v / 65536 % 256 < 256 := Nat.mod_lt _ (by decide)
  have h3 : v / 16777216 < 256 := by omega
  rw [leBytes_four h3 h2 h1 h0]
  have hv' : v = v % 256 + v / 256 % 256 * 256 + v / 65536 % 256 * 65536 + v /
    16777216 * 16777216 := by omega
  conv_lhs => rw [hv', leBytes_four h0 h1 h2 h3]
  rfl

/-- The bytes the standard prescribes are the bytes of the packed character. -/
theorem bytes_eq (F : Form) (c : Char) : F.bytes c = charBytes (packed F c) (encodingOf F) := by
  cases F with
  | utf8 => exact bytes_utf8 c
  | utf16le => exact bytes_utf16le c
  | utf16be => exact bytes_utf16be c
  | utf32le => rfl
  | utf32be => exact bytes_utf32be c

theorem length_bytes (F : Form) (c : Char) :
    (F.bytes c).length = (getMultibyteCharSize (packed F c) (encodingOf F)).toNat := by
  rw [bytes_eq, length_charBytes]

theorem utf8CharSize_eq (b : UInt8) : utf8CharSize b =
    if b.toNat ≤ 0x7f then 1 else if b.toNat / 32 = 6 then 2 else if b.toNat / 16 = 14 then 3
    else if b.toNat / 8 = 30 then 4 else 1 := by
  have hr (k : UInt8) (n : Nat) (hk : k.toNat = n) (hn : n < 8) :
      (b >>> k).toNat = b.toNat / 2 ^ n := by
    subst hk
    rw [UInt8.toNat_shiftRight, Nat.mod_eq_of_lt hn, Nat.shiftRight_eq_div_pow]
  have h5 : (b >>> 5).toNat = b.toNat / 32 := hr 5 5 rfl (by decide)
  have h4 : (b >>> 4).toNat = b.toNat / 16 := hr 4 4 rfl (by decide)
  have h3 : (b >>> 3).toNat = b.toNat / 8 := hr 3 3 rfl (by decide)
  simp only [utf8CharSize, UInt8.le_iff_toNat_le, ← UInt8.toNat_inj, h5, h4, h3, UInt8.reduceToNat]

theorem utf16CharSize_eq (b : UInt8) :
    utf16CharSize b = if 0xd8 ≤ b.toNat ∧ b.toNat < 0xe0 then 4 else 2 := by
  simp only [utf16CharSize, ge_iff_le, UInt8.le_iff_toNat_le,
    UInt8.lt_iff_toNat_lt, UInt8.reduceToNat]

/-- The high byte of the first unit tells a pair from a single unit. -/
theorem utf16CharSize_unicodeToUTF16 (c : Char) {b : UInt8}
    (hb : b.toNat = (unicodeToUTF16 c.val).toNat / 256 % 256) :
    utf16CharSize b = if unicodeToUTF16 c.val ≤ 0xFFFF then 2 else 4 := by
  have hv := scalar c
  have hx := toNat_unicodeToUTF16 (scalar_lt c)
  simp only [utf16CharSize_eq, UInt32.le_iff_toNat_le, UInt32.reduceToNat]
  generalize b.toNat = b at hb ⊢
  generalize (unicodeToUTF16 c.val).toNat = x at hx hb ⊢
  generalize c.val.toNat = v at hv hx
  by_cases h : v < 0x10000
  · rw [if_pos h] at hx
    rw [if_neg (by omega), if_pos (by omega)]
  · obtain rfl :
      x = (0xDC00 + (v - 0x10000) % 0x400) * 0x10000 + (0xD800 + (v - 0x10000) / 0x400) := by
      rw [hx, if_neg h]
    have hlow : ∀ high low, low < 65536 → (high * 0x10000 + low) / 256 % 256 = low / 256 := by
      intro high low _
      omega
    rw [hlow _ _ (by omega)] at hb
    clear hlow
    rw [if_pos (by omega), if_neg (by omega)]

section
variable {F : Form} {c : Char} {f : Nat → UInt8}

/-- The two ways to compute the size of a character agree on the bytes of a scalar value. -/
theorem nextCharSize_packed (hf : ∀ i < (F.bytes c).length, f i = (F.bytes c).getD i 0) :
    nextCharSize f (encodingOf F) = getMultibyteCharSize (packed F c) (encodingOf F) := by
  have hv := scalar c
  have hlen := length_bytes F c
  have hsize := getMultibyteCharSize_le (packed F c) (encodingOf F)
  have hbyte : ∀ i < (getMultibyteCharSize (packed F c) (encodingOf F)).toNat,
      (f i).toNat = (adjustEndianness (packed F c) (encodingOf F)).toNat / 256 ^ i % 256 :=
        fun i hi => by
    rw [hf i (by omega), bytes_eq, charBytes, getD_leBytes hi, UInt8.toNat_ofNat']
  cases F with
  | utf32le | utf32be => rfl
  | utf8 =>
    have h0 : (f 0).toNat = (unicodeToUTF8 c.val).toNat % 256 := by
      have := hbyte 0 hsize.1
      rwa [Nat.pow_zero, Nat.div_one] at this
    have hx := toNat_unicodeToUTF8 c.val
    show utf8CharSize (f 0) = if _ then _ else _
    simp only [utf8CharSize_eq, packed, encodingOf, encodeChar,
      UInt32.le_iff_toNat_le, UInt32.reduceToNat]
    generalize (f 0).toNat = b at h0 ⊢
    generalize (unicodeToUTF8 c.val).toNat = x at hx h0 ⊢
    generalize c.val.toNat = v at hv hx
    by_cases h1 : v < 0x80
    · rw [if_pos h1] at hx
      rw [if_pos (by omega), if_pos (by omega)]
    rw [if_neg h1] at hx
    by_cases h2 : v < 0x800
    · obtain rfl : x = v / 64 % 32 + 192 + (v % 64 + 128) * 256 := by rw [hx, if_pos h2]; omega
      obtain rfl : b = v / 64 % 32 + 192 := by rw [h0]; omega
      rw [if_neg (by omega), if_pos (by omega), if_neg (by omega), if_pos (by omega)]
    rw [if_neg h2] at hx
    by_cases h3 : v < 0x10000
    · obtain rfl : x = v / 4096 % 16 + 224 + (v / 64 % 64 + 128 + (v % 64 + 128) * 256) * 256 := by
        rw [hx, if_pos h3]; omega
      obtain rfl : b = v / 4096 % 16 + 224 := by rw [h0]; omega
      rw [if_neg (by omega), if_neg (by omega), if_pos (by omega),
        if_neg (by omega), if_neg (by omega), if_pos (by omega)]
    · obtain rfl : x = v / 262144 % 8 + 240 + (v / 4096 % 64 + 128 + (v / 64 % 64 + 128 +
          (v % 64 + 128) * 256) * 256) * 256 := by rw [hx, if_neg h3]; omega
      obtain rfl : b = v / 262144 % 8 + 240 := by rw [h0]; omega
      rw [if_neg (by omega), if_neg (by omega), if_neg (by omega),
        if_pos (by omega), if_neg (by omega), if_neg (by omega), if_neg (by omega)]
  | utf16le =>
    have h2 : 1 < (getMultibyteCharSize (unicodeToUTF16 c.val) .utf16le).toNat := by
      simp only [getMultibyteCharSize]; split_ifs <;> decide
    have h1 : (f 1).toNat = (unicodeToUTF16 c.val).toNat / 256 % 256 := by
      have := hbyte 1 h2
      rwa [Nat.pow_one] at this
    exact utf16CharSize_unicodeToUTF16 c h1
  | utf16be =>
    have h0 : (f 0).toNat = (flipEndian16x2 (unicodeToUTF16 c.val)).toNat % 256 := by
      have := hbyte 0 hsize.1
      rwa [Nat.pow_zero, Nat.div_one] at this
    rw [toNat_flipEndian16x2] at h0
    exact utf16CharSize_unicodeToUTF16 c (by omega)

/-- `GetNextChar` reads the character of a scalar value. -/
theorem nextChar_packed (hf : ∀ i < (F.bytes c).length, f i = (F.bytes c).getD i 0) :
    nextChar f (encodingOf F) = packed F c := by
  refine nextChar_charBytes (nextCharSize_packed hf) fun i hi => ?_
  rw [hf i (by rw [length_bytes]; exact hi), bytes_eq]

end

end TinyBase
