import TinyBase.AsciiText
import TinyBase.OverRead
import TinyBase.StringCursor

/-!
# Counting printable characters

`LEN_PRINTCHAR` puts the bytes of a character together as signed `char`s. A byte from 0x80 on fills
the word above it with ones, so that the control characters 0x80 to 0x9F are counted; and the UTF-16
loops, which take a word above 0xFFFF for two units, go on one unit too far behind a single unit
with such a byte.
-/

namespace TinyBase
open Unicode

/-! ### The word of a character -/

section
variable {ptr : Nat → UInt8} {size : UInt32} {b : UInt8} {i : Nat} {F : Form}
  {c : Char} {f : Nat → UInt8}

theorem charBits_of_lt (hb : b.toNat < 0x80) : charBits b = b.toUInt32 := by
  have hall : ∀ n < 0x80, charBits (UInt8.ofNat n) = (UInt8.ofNat n).toUInt32 := by decide +kernel
  simpa using hall b.toNat hb

/-- A negative `char` fills the word above it. -/
theorem le_charBits_shiftLeft (hb : 0x80 ≤ b.toNat) :
    2 ^ 31 ≤ (charBits b).toNat ∧ 2 ^ 31 ≤ (charBits b <<< 8).toNat ∧
    2 ^ 31 ≤ (charBits b <<< 16).toNat ∧ 2 ^ 31 ≤ (charBits b <<< 24).toNat := by
  have hall : ∀ n < 256, 0x80 ≤ n → 2 ^ 31 ≤ (charBits (UInt8.ofNat n)).toNat ∧
      2 ^ 31 ≤ (charBits (UInt8.ofNat n) <<< 8).toNat ∧
      2 ^ 31 ≤ (charBits (UInt8.ofNat n) <<< 16).toNat ∧
      2 ^ 31 ≤ (charBits (UInt8.ofNat n) <<< 24).toNat := by
    decide +kernel
  simpa using hall b.toNat b.toNat_lt hb

theorem packChars_of_lt (hsize : 0 < size.toNat ∧ size.toNat ≤ 4)
    (h : ∀ i < size.toNat, (ptr i).toNat < 0x80) : packChars ptr size = packBytes ptr size := by
  rw [packChars, packBytes]
  split_ifs with h1 h2 h3 h4
  · subst h1
    rw [charBits_of_lt (h 0 (by decide))]
  · subst h2
    rw [charBits_of_lt (h 0 (by decide)), charBits_of_lt (h 1 (by decide))]
  · subst h3
    rw [charBits_of_lt (h 0 (by decide)), charBits_of_lt (h 1 (by decide)),
      charBits_of_lt (h 2 (by decide))]
  · subst h4
    rw [charBits_of_lt (h 0 (by decide)), charBits_of_lt (h 1 (by decide)),
      charBits_of_lt (h 2 (by decide)), charBits_of_lt (h 3 (by decide))]
  · simp only [← UInt32.toNat_inj, UInt32.reduceToNat] at h1 h2 h3 h4
    omega

theorem le_packChars (hsize : size.toNat ≤ 4) (hi : i < size.toNat) (h : 0x80 ≤ (ptr i).toNat) :
    2 ^ 31 ≤ (packChars ptr size).toNat := by
  have hleft : ∀ {x y : UInt32}, 2 ^ 31 ≤ x.toNat → 2 ^ 31 ≤ (x ||| y).toNat := fun hx => by
    rw [UInt32.toNat_or]
    exact Nat.le_trans hx Nat.left_le_or
  have hright : ∀ {x y : UInt32}, 2 ^ 31 ≤ y.toNat → 2 ^ 31 ≤ (x ||| y).toNat := fun hy => by
    rw [UInt32.toNat_or]
    exact Nat.le_trans hy Nat.right_le_or
  obtain ⟨h0, h8, h16, h24⟩ := le_charBits_shiftLeft h
  rw [packChars]
  split_ifs with h1 h2 h3
  · subst h1
    obtain rfl : i = 0 := Nat.lt_one_iff.1 hi
    exact h0
  · subst h2
    have hi : i < 2 := hi
    interval_cases i
    exacts [hright h0, hleft h8]
  · subst h3
    have hi : i < 3 := hi
    interval_cases i
    exacts [hright h0, hleft (hright h8), hleft (hleft h16)]
  · have hi : i < 4 := Nat.lt_of_lt_of_le hi hsize
    interval_cases i
    exacts [hright h0, hleft (hright h8), hleft (hleft (hright h16)), hleft (hleft (hleft h24))]

theorem toNat_packBytes_two (f : Nat → UInt8) :
    (packBytes f 2).toNat = (f 1).toNat * 256 + (f 0).toNat := by
  rw [toNat_packBytes, if_neg (by decide), if_pos rfl]

theorem toNat_packBytes_four (f : Nat → UInt8) : (packBytes f 4).toNat =
    (f 3).toNat * 16777216 + (f 2).toNat * 65536 + (f 1).toNat * 256 + (f 0).toNat := by
  rw [toNat_packBytes, if_neg (by decide), if_neg (by decide), if_neg (by decide), if_pos rfl]

/-- Putting the bytes of a big-endian character into host order first, or turning the word around
afterwards. -/
theorem packBytes_swapUnits {E : Encoding} (hE : E = .utf16be → size = 2 ∨ size = 4)
    (hE' : E = .utf32be → size = 4) :
    packBytes (swapUnits E f) size = adjustEndianness (packBytes f size) E := by
  have h0 := (f 0).toNat_lt
  have h1 := (f 1).toNat_lt
  have h2 := (f 2).toNat_lt
  have h3 := (f 3).toNat_lt
  cases E with
  | ascii | utf8 | utf16le | utf32le => rfl
  | utf16be =>
    apply UInt32.toNat_inj.1
    show _ = (flipEndian16x2 _).toNat
    rcases hE rfl with rfl | rfl
    · rw [toNat_flipEndian16x2, toNat_packBytes_two, toNat_packBytes_two]
      show (f 0).toNat * 256 + (f 1).toNat = _
      omega
    · rw [toNat_flipEndian16x2, toNat_packBytes_four, toNat_packBytes_four]
      show (f 2).toNat * 16777216 + (f 3).toNat * 65536 + (f 0).toNat * 256 + (f 1).toNat = _
      omega
  | utf32be =>
    apply UInt32.toNat_inj.1
    show _ = (flipEndian32 _).toNat
    obtain rfl := hE' rfl
    rw [toNat_flipEndian32, toNat_packBytes_four, toNat_packBytes_four]
    show (f 0).toNat * 16777216 + (f 1).toNat * 65536 + (f 2).toNat * 256 + (f 3).toNat = _
    omega

/-- Some byte of the character has its top bit set. -/
def hasHighByte (F : Form) (c : Char) : Bool := (F.bytes c).any fun b => 0x80 ≤ b.toNat

theorem hasHighByte_iff : hasHighByte F c = true ↔ ∃ b ∈ F.bytes c, 0x80 ≤ b.toNat := by
  simp [hasHighByte]

theorem mem_leBytes {n v j : Nat} (hj : j < n) : UInt8.ofNat (v / 256 ^ j) ∈ leBytes n v :=
  List.mem_map.2 ⟨j, List.mem_range.2 hj, rfl⟩

/-- Without such a byte the character is its own word, and no control character from 0x80 on. -/
theorem packed_of_not_hasHighByte (h : hasHighByte F c = false) :
    packed F c = c.val ∧ (c.toNat < 0x80 ∨ 0x100 ≤ c.toNat) := by
  have hlow : ∀ b ∈ F.bytes c, b.toNat < 0x80 := fun b hb => by
    by_contra hge
    rw [hasHighByte_iff.2 ⟨b, hb, Nat.le_of_not_lt hge⟩] at h
    cases h
  have hdigit : ∀ {n v j}, j < n → (∀ b ∈ leBytes n v, b.toNat < 0x80) →
      v / 256 ^ j % 256 < 0x80 := by
    intro n v j hj hall
    have := hall _ (mem_leBytes hj)
    rwa [UInt8.toNat_ofNat'] at this
  have hval : c.val.toNat = c.toNat := rfl
  have hutf16 : (∀ u ∈ utf16Units c, ∀ b ∈ leBytes 2 u, b.toNat < 0x80) →
      unicodeToUTF16 c.val = c.val ∧ (c.toNat < 0x80 ∨ 0x100 ≤ c.toNat) := by
    intro hall
    by_cases hlt : c.val.toNat < 0x10000
    · rw [utf16Units, if_pos hlt, List.forall_mem_singleton] at hall
      have hbyte := hdigit (j := 0) (by decide) hall
      refine ⟨if_neg fun hgt => ?_, by omega⟩
      have := UInt32.lt_iff_toNat_lt.1 hgt
      simp at this
      omega
    · rw [utf16Units, if_neg hlt] at hall
      have hbyte := hdigit (j := 1) (by decide) (hall _ List.mem_cons_self)
      have hv := scalar_lt c
      omega
  cases F with
  | utf8 =>
    obtain ⟨b, bs, hbytes, hfirst⟩ := utf8EncodeChar_first c
    have hb : b.toNat < 0x80 := hlow b (by rw [Form.bytes, hbytes]; exact List.mem_cons_self)
    have hc : b.toUInt32 = c.val := hfirst.resolve_right fun hge => Nat.not_le.2 hb hge.2
    have hlt : c.toNat < 0x80 := by rw [← hval, ← hc, UInt8.toNat_toUInt32]; exact hb
    exact ⟨packed_of_lt hlt _, .inl hlt⟩
  | utf16le => exact hutf16 fun u hu b hb => hlow b (List.mem_flatMap.2 ⟨u, hu, hb⟩)
  | utf16be =>
    exact hutf16 fun u hu b hb => hlow b (List.mem_flatMap.2 ⟨u, hu, List.mem_reverse.2 hb⟩)
  | utf32le =>
    have hbyte := hdigit (j := 0) (by decide) hlow
    exact ⟨rfl, by omega⟩
  | utf32be =>
    have hbyte := hdigit (n := 4) (j := 0) (by decide) fun b hb => hlow b (List.mem_reverse.2 hb)
    exact ⟨rfl, by omega⟩

theorem le_of_hasHighByte (h : hasHighByte F c = true) : 0x80 ≤ c.toNat := by
  by_contra hlt
  have hlt : c.toNat < 128 := Nat.lt_of_not_le hlt
  obtain ⟨b, hb, hhigh⟩ := hasHighByte_iff.1 h
  rw [bytes_eq, packed_of_lt hlt, (charBytes_eq_wideChar hlt _).1, wideChar] at hb
  rcases List.mem_or_eq_of_mem_set hb with hzero | rfl
  · rw [List.eq_of_mem_replicate hzero] at hhigh
    exact absurd hhigh (by decide)
  · have hval : c.val.toNat = c.toNat := rfl
    rw [UInt8.toNat_ofNat', hval] at hhigh
    omega

theorem exists_swapUnits (F : Form) (c : Char) :
    ∃ swap : Nat → Nat, (∀ f i, swapUnits (encodingOf F) f i = f (swap i)) ∧
    ∀ i < (F.bytes c).length, swap i < (F.bytes c).length ∧ swap (swap i) = i := by
  cases F with
  | utf8 | utf16le | utf32le => exact ⟨id, fun _ _ => rfl, fun i hi => ⟨hi, rfl⟩⟩
  | utf16be =>
    have hlen : (Form.utf16be.bytes c).length = 2 ∨ (Form.utf16be.bytes c).length = 4 := by
      rw [length_bytes, encodingOf, getMultibyteCharSize]
      split_ifs
      · exact .inl rfl
      · exact .inr rfl
    have hxor : ∀ i < 4, i ^^^ 1 < 4 ∧ (i < 2 → i ^^^ 1 < 2) ∧ i ^^^ 1 ^^^ 1 = i := by decide
    refine ⟨(· ^^^ 1), fun _ _ => rfl, fun i hi => ?_⟩
    obtain ⟨hlt4, hlt2, hback⟩ := hxor i (by omega)
    refine ⟨?_, hback⟩
    show i ^^^ 1 < _
    omega
  | utf32be =>
    have hlen := length_bytes_utf32 (.inr rfl) c
    refine ⟨(3 - ·), fun _ _ => rfl, fun i hi => ⟨?_, ?_⟩⟩
    · show 3 - i < _
      omega
    · show 3 - (3 - i) = i
      omega

/-- The word that the loops put together: the character, or a large number. -/
theorem printChar_text (hf : ∀ i < (F.bytes c).length, f i = (F.bytes c).getD i 0) :
    if hasHighByte F c then 2 ^ 31 ≤ (printChar (encodingOf F) f).toNat
      else printChar (encodingOf F) f = c.val := by
  have hsize := nextCharSize_packed hf
  have hlen : (nextCharSize f (encodingOf F)).toNat = (F.bytes c).length := by
    rw [hsize, length_bytes]
  have hle := nextCharSize_le f (encodingOf F)
  have hmem : ∀ i < (F.bytes c).length, ∃ h : i < (F.bytes c).length, f i = (F.bytes c)[i] :=
    fun i hi => by
    rw [hf i hi, List.getD_eq_getElem?_getD, List.getElem?_eq_getElem hi, Option.getD_some]
    exact ⟨hi, rfl⟩
  obtain ⟨swap, hswap, hinv⟩ := exists_swapUnits F c
  rw [printChar]
  split_ifs with hhigh
  · obtain ⟨b, hb, hge⟩ := hasHighByte_iff.1 hhigh
    obtain ⟨i, hi, rfl⟩ := List.getElem_of_mem hb
    obtain ⟨hlt, hback⟩ := hinv i hi
    obtain ⟨_, hfi⟩ := hmem i hi
    refine le_packChars (i := swap i) hle.2 (by rw [hlen]; exact hlt) ?_
    rw [hswap, hback, hfi]
    exact hge
  · have hlow : ∀ i < (nextCharSize f (encodingOf F)).toNat,
        (swapUnits (encodingOf F) f i).toNat < 0x80 := fun i hi => by
      obtain ⟨hlt, -⟩ := hinv i (by rw [← hlen]; exact hi)
      obtain ⟨_, hfi⟩ := hmem (swap i) hlt
      by_contra hge
      refine hhigh (hasHighByte_iff.2 ⟨_, List.getElem_mem hlt, ?_⟩)
      rw [← hfi, ← hswap f i]
      exact Nat.le_of_not_lt hge
    have hpack : packBytes (swapUnits (encodingOf F) f) (nextCharSize f (encodingOf F)) =
        packed F c := by
      rw [packBytes_swapUnits, ← nextChar_packed hf, nextChar]
      · intro hE
        rw [hE, nextCharSize, utf16BECharSize, utf16CharSize]
        split_ifs
        · exact .inr rfl
        · exact .inl rfl
      · intro hE
        rw [hE, nextCharSize]
    rw [packChars_of_lt hle hlow, hpack, (packed_of_not_hasHighByte (by simpa using hhigh)).1]

end

/-! ### The characters that are looked at -/

/-- The values that are to be counted. -/
def isPrintChar (c : Char) : Bool := (0x20 ≤ c.toNat && c.toNat < 0x7f) || 0x9f < c.toNat

/-- The control characters from 0x80 on. -/
def isC1 (c : Char) : Bool := 0x80 ≤ c.toNat && c.toNat ≤ 0x9f

/-- Two units of UTF-16. -/
def isPair (c : Char) : Bool := 0x10000 ≤ c.toNat

/-- One unit of UTF-16 whose word is above 0xFFFF. -/
def isWide (F : Form) (c : Char) : Bool :=
  (F == .utf16le || F == .utf16be) && !isPair c && hasHighByte F c

/-- The characters, each with whether the loop comes to it one unit too far on. -/
def visits (F : Form) : Bool → List Char → List (Char × Bool)
  | _, [] => []
  | ahead, c :: cs => (c, ahead) :: visits F (if isPair c then ahead else !ahead && isWide F c) cs

/-- A single unit is passed over by a loop that is one unit too far on; of a pair it sees the second
unit. -/
def counted (v : Char × Bool) : Bool := (isPair v.1 || !v.2) && (isPrintChar v.1 || isC1 v.1)

/-- Counted although not printable. -/
def overCounted (v : Char × Bool) : Bool := !v.2 && isC1 v.1

/-- Printable, but passed over. -/
def missed (v : Char × Bool) : Bool := v.2 && !isPair v.1 && isPrintChar v.1

/-- The loop sees the second unit of a pair at the end and reads on behind it. -/
def endsInside (F : Form) (ahead : Bool) (cs : List Char) : Bool :=
  (visits F ahead cs).getLast?.any fun v => v.2 && isPair v.1

section
variable {F : Form} {c : Char} {cs post : List Char} {ahead : Bool} {f : Nat → UInt8} {n k : Nat}

theorem isPrintable_printChar (hf : ∀ i < (F.bytes c).length, f i = (F.bytes c).getD i 0) :
    isPrintable (printChar (encodingOf F) f) = (isPrintChar c || isC1 c) := by
  have hword := printChar_text hf
  have hval : c.val.toNat = c.toNat := rfl
  rw [Bool.eq_iff_iff]
  simp only [isPrintable, isPrintChar, isC1, Bool.or_eq_true, Bool.and_eq_true,
    decide_eq_true_eq, ge_iff_le, gt_iff_lt,
    UInt32.lt_iff_toNat_lt, UInt32.le_iff_toNat_le, UInt32.reduceToNat]
  split_ifs at hword with hhigh
  · have hle := le_of_hasHighByte hhigh
    omega
  · obtain ⟨-, hrange⟩ := packed_of_not_hasHighByte (by simpa using hhigh)
    rw [hword]
    omega

theorem length_bytes_utf16 (hF : F = .utf16le ∨ F = .utf16be) (c : Char) :
    (F.bytes c).length = if isPair c then 4 else 2 := by
  have hunits : (utf16Units c).length = if isPair c then 2 else 1 := by
    rw [utf16Units, isPair]
    split_ifs with h1 h2
    · have hval : c.val.toNat = c.toNat := rfl
      rw [decide_eq_true_eq] at h2
      omega
    · rfl
    · rfl
    · have hval : c.val.toNat = c.toNat := rfl
      rw [decide_eq_true_eq] at *
      omega
  have hlen : (F.bytes c).length = 2 * (utf16Units c).length := by
    rcases hF with rfl | rfl
    · rw [Form.bytes, List.length_flatMap]
      simp [Nat.mul_comm]
    · rw [Form.bytes, List.length_flatMap]
      simp [Nat.mul_comm]
  rw [hlen, hunits]
  split_ifs <;> rfl

/-- A loop that looks at the first byte of a character goes on behind it, or one unit further. -/
theorem toNat_printStep (hf : ∀ i < (F.bytes c).length, f i = (F.bytes c).getD i 0) :
    (printStep (encodingOf F) f).toNat = (F.bytes c).length + if isWide F c then 2 else 0 := by
  have hsize := nextCharSize_packed hf
  have hlen : (nextCharSize f (encodingOf F)).toNat = (F.bytes c).length := by
    rw [hsize, length_bytes]
  have hword := printChar_text hf
  have hval : c.val.toNat = c.toNat := rfl
  have hutf16 (hF : F = .utf16le ∨ F = .utf16be) :
      (if printChar (encodingOf F) f > 0xFFFF then (4 : UInt32) else 2).toNat =
      (F.bytes c).length + if isWide F c then 2 else 0 := by
    have hwide : isWide F c = (!isPair c && hasHighByte F c) := by rcases hF with rfl | rfl <;> rfl
    rw [length_bytes_utf16 hF, hwide]
    simp only [gt_iff_lt, UInt32.lt_iff_toNat_lt, UInt32.reduceToNat]
    cases hpair : isPair c <;> cases hhigh : hasHighByte F c <;> rw [hhigh] at hword
    · have hlt : c.toNat < 0x10000 := Nat.lt_of_not_le fun hge => by simp [isPair, hge] at hpair
      have hword : printChar (encodingOf F) f = c.val := hword
      rw [if_neg (by rw [hword]; omega)]
      rfl
    · have hword : 2 ^ 31 ≤ (printChar (encodingOf F) f).toNat := hword
      rw [if_pos (by omega)]
      rfl
    · have hge : 0x10000 ≤ c.toNat := by simpa [isPair] using hpair
      have hword : printChar (encodingOf F) f = c.val := hword
      rw [if_pos (by rw [hword]; omega)]
      rfl
    · have hword : 2 ^ 31 ≤ (printChar (encodingOf F) f).toNat := hword
      rw [if_pos (by omega)]
      rfl
  cases F with
  | utf8 | utf32le | utf32be => exact hlen
  | utf16le => exact hutf16 (.inl rfl)
  | utf16be => exact hutf16 (.inr rfl)

theorem countP_visits (F : Form) (ahead : Bool) (cs : List Char) :
    (visits F ahead cs).countP counted + (visits F ahead cs).countP missed =
    cs.countP isPrintChar + (visits F ahead cs).countP overCounted := by
  induction cs generalizing ahead with
  | nil => rfl
  | cons c cs ih =>
    have hpair : isPair c = true → isPrintChar c = true ∧ isC1 c = false := fun h => by
      have hge : 0x10000 ≤ c.toNat := by simpa [isPair] using h
      constructor
      · simp only [isPrintChar, Bool.or_eq_true, decide_eq_true_eq]
        omega
      · simp only [isC1, Bool.and_eq_false_iff, decide_eq_false_iff_not]
        omega
    have hC1 : isC1 c = true → isPrintChar c = false := fun h => by
      rw [isC1, Bool.and_eq_true, decide_eq_true_eq, decide_eq_true_eq] at h
      simp only [isPrintChar, Bool.or_eq_false_iff, Bool.and_eq_false_iff, decide_eq_false_iff_not]
      omega
    have ih := ih (if isPair c then ahead else !ahead && isWide F c)
    have hone : ((if counted (c, ahead) then 1 else 0) + if missed (c, ahead) then 1 else 0 : Nat) =
        (if isPrintChar c then 1 else 0) + if overCounted (c, ahead) then 1 else 0 := by
      simp only [counted, missed, overCounted]
      rcases Bool.eq_false_or_eq_true (isPair c) with hp | hp
      · cases ahead <;> simp [hp, hpair hp]
      · rcases Bool.eq_false_or_eq_true (isC1 c) with h1 | h1
        · cases ahead <;> simp [hp, h1, hC1 h1]
        · cases ahead <;> simp [hp, h1]
    rw [visits, List.countP_cons, List.countP_cons, List.countP_cons, List.countP_cons]
    omega

/-- Where a loop is: in front of `post`, or one unit further on, with `k` characters counted. -/
structure Visiting (F : Form) (cs : List Char) (n k : Nat) (post : List Char) (ahead : Bool) :
    Prop where
  split : ∃ pre, cs = pre ++ post ∧ n = (F.encode pre).length + if ahead then 2 else 0
  utf16 : ahead = true → F = .utf16le ∨ F = .utf16be
  count : k + (visits F ahead post).countP counted = (visits F false cs).countP counted
  inside : endsInside F ahead post = true → endsInside F false cs = true

namespace Visiting

theorem start (F : Form) (cs : List Char) : Visiting F cs 0 0 cs false where
  split := ⟨[], rfl, rfl⟩
  utf16 h := nomatch h
  count := Nat.zero_add _
  inside h := h

theorem endsInside_cons (hpost : post ≠ []) :
    endsInside F ahead (c :: post) = endsInside F (if isPair c then ahead
      else !ahead && isWide F c) post := by
  obtain ⟨d, post, rfl⟩ := List.exists_cons_of_ne_nil hpost
  rw [endsInside, endsInside, visits, visits, List.getLast?_cons_cons]

theorem normal (h : Visiting F cs n k post ahead) : ∃ post' ahead', Visiting F cs n k post' ahead' ∧
    endsInside F ahead' post' = endsInside F ahead post ∧
      (ahead' = true → ∀ c ∈ post'.head?, isPair c = true) := by
  cases ahead with
  | false => exact ⟨post, false, h, rfl, nofun⟩
  | true =>
    cases post with
    | nil => exact ⟨[], true, h, rfl, nofun⟩
    | cons c post =>
      cases hpair : isPair c with
      | true => exact ⟨_, true, h, rfl, fun _ d hd => by cases hd; exact hpair⟩
      | false =>
        obtain ⟨pre, hcs, hn⟩ := h.split
        have hlen := length_bytes_utf16 (h.utf16 rfl) c
        have hinside : endsInside F false post = endsInside F true (c :: post) := by
          cases post with
          | nil => simp [endsInside, visits, hpair]
          | cons d post =>
            rw [endsInside_cons (List.cons_ne_nil d post), hpair]
            rfl
        rw [hpair] at hlen
        refine ⟨post, false, ⟨⟨pre ++ [c], by simp [hcs], ?_⟩, nofun, ?_, ?_⟩, hinside, nofun⟩
        · rw [hn, Form.encode_append, List.length_append, Form.encode_cons,
            Form.encode_nil, List.append_nil, hlen]
          rfl
        · have hcount := h.count
          rw [visits, List.countP_cons, counted, hpair] at hcount
          simpa using hcount
        · rw [hinside]
          exact h.inside

theorem next (h : Visiting F cs n k (c :: post) ahead) (hc : ahead = true → isPair c = true) :
    Visiting F cs (n + ((F.bytes c).length + if isWide F c then 2 else 0)) (k + if isPrintChar c ||
      isC1 c then 1 else 0) post (if isPair c then ahead else !ahead && isWide F c) := by
  obtain ⟨pre, hcs, hn⟩ := h.split
  have hcount := h.count
  have hwide : isPair c = true → isWide F c = false := fun hpair => by simp [isWide, hpair]
  have hahead : isPair c = false → ahead = false := fun hpair =>
    Bool.eq_false_iff.2 fun h => Bool.false_ne_true (hpair.symm.trans (hc h))
  rw [visits, List.countP_cons] at hcount
  refine ⟨⟨pre ++ [c], by simp [hcs], ?_⟩, ?_, ?_, ?_⟩
  · rw [hn, Form.encode_append, List.length_append, Form.encode_cons,
      Form.encode_nil, List.append_nil]
    rcases Bool.eq_false_or_eq_true (isPair c) with hpair | hpair
    · rw [hwide hpair, hpair]
      simp
      omega
    · rw [hahead hpair, hpair]
      simp
      omega
  · rcases Bool.eq_false_or_eq_true (isPair c) with hpair | hpair
    · rw [hpair]
      exact h.utf16
    · rw [hpair]
      intro hahead
      simp only [Bool.false_eq_true, if_false, Bool.and_eq_true, isWide,
        Bool.or_eq_true, beq_iff_eq] at hahead
      exact hahead.2.1.1
  · rw [← hcount, counted]
    rcases Bool.eq_false_or_eq_true (isPair c) with hpair | hpair
    · rw [hpair]
      simp
      omega
    · rw [hahead hpair, hpair]
      simp
      omega
  · intro hinside
    cases post with
    | nil => exact absurd hinside (by simp [endsInside, visits])
    | cons d post =>
      rw [← endsInside_cons (List.cons_ne_nil d post)] at hinside
      exact h.inside hinside

end Visiting

end

/-! ### A round -/

section
variable {m : Mem} {s : String} {F : Form} {cs pre post : List Char} {c : Char} {idx : Usz}
  {n k : Nat} {ahead : Bool}

theorem printCharAt_text (h : HoldsText m s F (pre ++ c :: post))
    (hidx : idx.toNat = (F.encode pre).length) :
    ∃ w, printCharAt (encodingOf F) m (s.base + idx) = .ok (isPrintChar c || isC1 c, w) ∧
      w.toNat = (F.bytes c).length + if isWide F c then 2 else 0 := by
  obtain ⟨-, hsize, -⟩ := walk_cons F c post
  have hf : ∀ i < (F.bytes c).length, ((F.encode (c :: post)).getD · 0) i = (F.bytes c).getD i 0 :=
    fun i hi => by
    rw [Form.encode_cons]
    exact getD_append_left hi
  have hread : Reads m.read (s.base + idx)
      (nextCharSize ((F.encode (c :: post)).getD · 0) (encodingOf F)).toNat
      ((F.encode (c :: post)).getD · 0) :=
    (h.reads_shift hidx).mono (by rw [hsize, Form.encode_cons, List.length_append]; omega)
  refine ⟨_, ?_, toNat_printStep hf⟩
  rw [printCharAt_eq _ hread, isPrintable_printChar hf]

theorem second_unit (hF : F = .utf16le ∨ F = .utf16be) (hpair : isPair c = true) {g : Nat → UInt8}
    (hg : ∀ i < 2, g i = (F.bytes c).getD (2 + i) 0) :
    0xdc ≤ (swapUnits (encodingOf F) g 1).toNat ∧ (swapUnits (encodingOf F) g 1).toNat < 0xe0 := by
  have hge : 0x10000 ≤ c.val.toNat := by simpa [isPair] using hpair
  have hunits : utf16Units c = [0xD800 + (c.val.toNat - 0x10000) / 0x400,
      0xDC00 + (c.val.toNat - 0x10000) % 0x400] :=
    if_neg (Nat.not_lt.2 hge)
  have hbyte : swapUnits (encodingOf F) g 1 =
      UInt8.ofNat ((0xDC00 + (c.val.toNat - 0x10000) % 0x400) / 256) := by
    rcases hF with rfl | rfl
    · show g 1 = _
      rw [hg 1 (by decide), Form.bytes, hunits]
      simp [leBytes]
    · show g 0 = _
      rw [hg 0 (by decide), Form.bytes, hunits]
      simp [leBytes]
  rw [hbyte, UInt8.toNat_ofNat']
  omega

theorem isPrintable_of_le {bytes : UInt32} (h : 2 ^ 31 ≤ bytes.toNat) :
    isPrintable bytes = true := by
  have hgt : bytes > 0x9f := UInt32.lt_iff_toNat_lt.2 (Nat.lt_of_lt_of_le (by decide) h)
  simp [isPrintable, hgt]

/-- In front of the second unit of a pair the loops see a character of two units. -/
theorem printCharAt_second (h : HoldsText m s F (pre ++ c :: post))
    (hF : F = .utf16le ∨ F = .utf16be) (hpair : isPair c = true)
    (hidx : idx.toNat = (F.encode pre).length) :
    (m.Readable (s.base + idx + 2) 4 →
      printCharAt (encodingOf F) m (s.base + idx + 2) = .ok (true, 4)) ∧
      ∀ r, printCharAt (encodingOf F) m (s.base + idx + 2) = .ok r →
      m.Readable (s.base + idx + 2) 4 := by
  have hlen : (F.bytes c).length = 4 := by rw [length_bytes_utf16 hF, hpair]; rfl
  have hread : Reads m.read (s.base + idx + 2) 2 fun i => (F.bytes c).getD (2 + i) 0 := by
    refine ((h.reads_shift hidx).shift 2 ?_ (by decide)).congr fun i hi => ?_
    · show 4 ≤ _
      rw [Form.encode_cons, List.length_append, hlen]
      omega
    · show (F.encode (c :: post)).getD (2 + i) 0 = _
      rw [Form.encode_cons]
      exact getD_append_left (by rw [hlen]; omega)
  have hsize {g : Nat → UInt8} (hg : ∀ i < 2, g i = (F.bytes c).getD (2 + i) 0) :
      nextCharSize g (encodingOf F) = 4 := by
    obtain ⟨hlow, hhigh⟩ := second_unit hF hpair hg
    have hunit : nextCharSize g (encodingOf F) = utf16CharSize (swapUnits (encodingOf F) g 1) := by
      rcases hF with rfl | rfl <;> rfl
    rw [hunit, utf16CharSize_eq, if_pos ⟨by omega, hhigh⟩]
  constructor
  · intro hreadable
    have hreads := hreadable.reads
    have hg : ∀ i < 2, m.bytesFrom (s.base + idx + 2) i = (F.bytes c).getD (2 + i) 0 :=
      fun i hi => by
      have hi' : (UInt64.ofNat i).toNat = i := UInt64.toNat_ofNat_of_lt_two_pow (by omega)
      simpa [hi'] using (hreads.mono (by decide)).unique hread (UInt64.ofNat i) (by omega)
    have hword : 2 ^ 31 ≤ (printChar (encodingOf F) (m.bytesFrom (s.base + idx + 2))).toNat := by
      obtain ⟨hlow, -⟩ := second_unit hF hpair hg
      rw [printChar, hsize hg]
      exact le_packChars (i := 1) (by decide) (by decide) (by omega)
    rw [printCharAt_eq (f := m.bytesFrom (s.base + idx + 2)) _ (by rw [hsize hg]; exact hreads)]
    have hstep : printStep (encodingOf F) (m.bytesFrom (s.base + idx + 2)) = 4 := by
      have hgt : printChar (encodingOf F) (m.bytesFrom (s.base + idx + 2)) > 0xFFFF :=
        UInt32.lt_iff_toNat_lt.2 (Nat.lt_of_lt_of_le (by decide) hword)
      rcases hF with rfl | rfl <;> exact if_pos hgt
    rw [isPrintable_of_le hword, hstep]
  · intro r hok
    have hsize' : getNextCharSize m.read (s.base + idx + 2) (encodingOf F) = .ok 4 := by
      rw [← hsize (g := fun i => (F.bytes c).getD (2 + i) 0) fun _ _ => rfl]
      rcases hF with rfl | rfl
      · show (m.read (s.base + idx + 2 + 1) >>= _) = _
        rw [hread 1 (by decide)]
        rfl
      · show (m.read (s.base + idx + 2) >>= _) = _
        rw [hread.zero (by decide)]
        rfl
    rw [printCharAt, hsize', Except.ok_bind, Except.bind_eq_ok] at hok
    obtain ⟨bytes, hbytes, -⟩ := hok
    exact Mem.readable_of_readBytes hbytes

theorem readable_second (h : HoldsText m s F (pre ++ c :: post)) (hF : F = .utf16le ∨ F = .utf16be)
    (hpair : isPair c = true) (hidx : idx.toNat = (F.encode pre).length) :
    m.Readable (s.base + idx + 2) 4 ↔ (post = [] → m.Readable (s.base + s.writeCur) 2) := by
  have hlt := s.writeCur.toNat_lt
  have h2 : (2 : Usz).toNat = 2 := rfl
  have h4 : (4 : Usz).toNat = 4 := rfl
  have hlen : (F.bytes c).length = 4 := by rw [length_bytes_utf16 hF, hpair]; rfl
  have hcur := h.len
  rw [Form.encode_append, Form.encode_cons, List.length_append, List.length_append, hlen] at hcur
  have hend : post = [] → s.base + idx + 2 + 2 = s.base + s.writeCur := by
    rintro rfl
    rw [Form.encode_nil, List.length_nil] at hcur
    have hsum : idx + 4 = s.writeCur := UInt64.toNat_inj.1 (by
      rw [UInt64.toNat_add, hcur, hidx, h4]
      exact Nat.mod_eq_of_lt (by omega))
    rw [← hsum]
    grind
  constructor
  · rintro hreadable hpost i hi
    have htwo : ((2 : Usz) + i).toNat = 2 + i.toNat := UInt64.toNat_add_of_lt (by omega)
    rw [← hend hpost, UInt64.add_assoc]
    exact hreadable (2 + i) (by omega)
  · intro hbehind i hi
    have htwo : ((2 : Usz) + i).toNat = 2 + i.toNat := UInt64.toNat_add_of_lt (by omega)
    rcases Nat.lt_or_ge (2 + i.toNat) (F.encode (c :: post)).length with hin | hout
    · rw [UInt64.add_assoc]
      exact Mem.readable_of_reads (h.reads_shift hidx) (2 + i) (by omega)
    · obtain rfl : post = [] := by
        cases post with
        | nil => rfl
        | cons d post =>
          have hd := length_bytes_utf16 hF d
          rw [Form.encode_cons, Form.encode_cons, List.length_append, List.length_append, hlen]
            at hout
          split_ifs at hd <;> omega
      rw [Form.encode_cons, Form.encode_nil, List.append_nil, hlen] at hout
      have hsub : (i - 2).toNat = i.toNat - 2 := UInt64.toNat_sub_of_toNat_le (by
        show 2 ≤ i.toNat
        omega)
      have hrest := hbehind rfl (i - 2) (by omega)
      rwa [← hend rfl, show s.base + idx + 2 + 2 + (i - 2) = s.base + idx + 2 + i by grind] at hrest

theorem toNat_base_add (hsmall : s.base.toNat + s.writeCur.toNat + 4 < 2 ^ 64)
    (hn : n < s.writeCur.toNat + 4) :
    (s.base + UInt64.ofNat n).toNat = s.base.toNat + n := UInt64.toNat_add_ofNat (by omega)

theorem base_add_lt_iff (hsmall : s.base.toNat + s.writeCur.toNat + 4 < 2 ^ 64)
    (hn : n < s.writeCur.toNat + 4) :
    s.base + UInt64.ofNat n < s.base + s.writeCur ↔ n < s.writeCur.toNat := by
  rw [UInt64.lt_iff_toNat_lt, toNat_base_add hsmall hn, UInt64.toNat_add,
    Nat.mod_eq_of_lt (by omega)]
  omega

namespace Visiting

theorem base_add (hv : Visiting F cs n k (c :: post) ahead) (h : HoldsText m s F cs) :
    ∃ pre idx, cs = pre ++ c :: post ∧
    UInt64.toNat idx = (F.encode pre).length ∧
      s.base + UInt64.ofNat n = s.base + idx + if ahead then 2 else 0 := by
  obtain ⟨pre, hcs, hn⟩ := hv.split
  have hlt := s.writeCur.toNat_lt
  have hlen := h.len
  rw [hcs, Form.encode_append, List.length_append] at hlen
  refine ⟨pre, UInt64.ofNat (F.encode pre).length, hcs, ?_, ?_⟩
  · rw [UInt64.toNat_ofNat']
    exact Nat.mod_eq_of_lt (by omega)
  · rw [hn, UInt64.ofNat_add, UInt64.add_assoc]
    cases ahead <;> rfl

theorem printCharAt_eq (hv : Visiting F cs n k (c :: post) ahead) (h : HoldsText m s F cs)
    (hc : ahead = true → isPair c = true)
    (hbehind : ahead = true → post = [] → m.Readable (s.base + s.writeCur) 2) :
    ∃ w, printCharAt (encodingOf F) m (s.base + UInt64.ofNat n) = .ok (isPrintChar c || isC1 c, w) ∧
      w.toNat = (F.bytes c).length + if isWide F c then 2 else 0 := by
  obtain ⟨pre, idx, rfl, hidx, haddr⟩ := hv.base_add h
  cases ahead with
  | false =>
    rw [haddr]
    exact (UInt64.add_zero (s.base + idx)).symm ▸ printCharAt_text h hidx
  | true =>
    have hF := hv.utf16 rfl
    have hpair := hc rfl
    have hprint : isPrintChar c = true := by
      have hge : 0x10000 ≤ c.toNat := by simpa [isPair] using hpair
      simp only [isPrintChar, Bool.or_eq_true, decide_eq_true_eq]
      omega
    refine ⟨4, ?_, ?_⟩
    · rw [haddr, hprint]
      exact (printCharAt_second h hF hpair hidx).1
        ((readable_second h hF hpair hidx).2 (hbehind rfl))
    · rw [length_bytes_utf16 hF, isWide, hpair]
      simp

theorem index_lt (hv : Visiting F cs n k (c :: post) ahead) (h : HoldsText m s F cs)
    (hc : ahead = true → isPair c = true) : n < s.writeCur.toNat := by
  obtain ⟨pre, hcs, hn⟩ := hv.split
  have hlen := h.len
  have hpos := length_bytes_pos F c
  rw [hcs, Form.encode_append, Form.encode_cons, List.length_append, List.length_append] at hlen
  rw [hn, hlen]
  cases ahead with
  | false =>
    simp only [Bool.false_eq_true, if_false]
    omega
  | true =>
    rw [length_bytes_utf16 (hv.utf16 rfl), hc rfl]
    simp only [if_true]
    omega

theorem next_state (hv : Visiting F cs n k (c :: post) ahead) (h : HoldsText m s F cs)
    (hsmall : s.base.toNat + s.writeCur.toNat + 4 < 2 ^ 64) (hc : ahead = true → isPair c = true)
    {w : UInt32} {b : Bool} (hw : w.toNat = (F.bytes c).length + if isWide F c then 2 else 0) :
    (s.base + UInt64.ofNat n + w.toUInt64, if b then UInt64.ofNat k + 1 else UInt64.ofNat k) =
        (s.base + UInt64.ofNat (n + ((F.bytes c).length + if isWide F c then 2 else 0)),
          UInt64.ofNat (k + if b then 1 else 0)) ∧
      (s.base + UInt64.ofNat n + w.toUInt64).toNat = (s.base + UInt64.ofNat n).toNat + w.toNat := by
  obtain ⟨pre, hcs, hn⟩ := (hv.next hc).split
  have hlen := h.len
  rw [hcs, Form.encode_append, List.length_append] at hlen
  have hstep : n + w.toNat < s.writeCur.toNat + 4 := by
    rw [hw, hn]
    split_ifs <;> omega
  refine ⟨Prod.ext ?_ ?_, ?_⟩
  · dsimp only
    rw [UInt64.ofNat_add n, ← hw, UInt64.ofNat_uInt32ToNat, UInt64.add_assoc]
  · dsimp only
    rw [UInt64.ofNat_add]
    cases b
    · exact (UInt64.add_zero _).symm
    · rfl
  · rw [UInt64.toNat_add (s.base + UInt64.ofNat n), toNat_base_add hsmall (by omega),
      UInt32.toNat_toUInt64, Nat.mod_eq_of_lt (by omega)]

theorem readable (hv : Visiting F cs n k [c] true) (h : HoldsText m s F cs)
    (hc : isPair c = true) {r : Bool × UInt32}
    (hok : printCharAt (encodingOf F) m (s.base + UInt64.ofNat n) = .ok r) :
    m.Readable (s.base + s.writeCur) 2 := by
  obtain ⟨pre, idx, rfl, hidx, haddr⟩ := hv.base_add h
  have hF := hv.utf16 rfl
  rw [haddr] at hok
  exact (readable_second h hF hc hidx).1 ((printCharAt_second h hF hc hidx).2 r hok) rfl

end Visiting

/-! ### The loop -/

theorem length_visits : (visits F ahead cs).length = cs.length := by
  induction cs generalizing ahead with
  | nil => rfl
  | cons c cs ih => rw [visits, List.length_cons, List.length_cons, ih]

theorem not_endsInside_nil : ¬ endsInside F ahead [] = true := by
  simp [endsInside, visits]

/-- What the loop counts, if the bytes it reads behind the string can be read. -/
theorem countByPtr_visits (h : HoldsText m s F cs)
    (hsmall : s.base.toNat + s.writeCur.toNat + 4 < 2 ^ 64)
    (hbehind : endsInside F false cs = true → m.Readable (s.base + s.writeCur) 2) :
    countByPtr s (printCharAt (encodingOf F) m) =
      .ok (UInt64.ofNat ((visits F false cs).countP counted)) := by
  refine Except.wp_eq.1 (wp_whileLoop
    (fun st => ∃ n k post ahead, Visiting F cs n k post ahead ∧
      st = (s.base + UInt64.ofNat n, UInt64.ofNat k))
    (fun st => s.base.toNat + s.writeCur.toNat + 4 - st.1.toNat) ?_ _
      ⟨0, 0, cs, false, .start F cs, by simp⟩ (by omega))
  rintro _ ⟨n, k, post, ahead, hv, rfl⟩
  obtain ⟨post, ahead, hv, -, hpair⟩ := hv.normal
  cases post with
  | nil =>
    obtain ⟨pre, rfl, hn⟩ := hv.split
    have hcount := hv.count
    have hlen := h.len
    rw [List.append_nil] at hlen hcount
    have hge : ¬ s.base + UInt64.ofNat n < s.base + s.writeCur := by
      rw [base_add_lt_iff hsmall (by split_ifs at hn <;> omega)]
      omega
    dsimp only
    rw [if_neg hge, List.append_nil, ← hcount]
    rfl
  | cons c post =>
    have hc : ahead = true → isPair c = true := fun ha => hpair ha c rfl
    have hat : ahead = true → post = [] → m.Readable (s.base + s.writeCur) 2 := fun ha hpost => by
      subst hpost
      exact hbehind (hv.inside (by simp [endsInside, visits, ha, hc ha]))
    obtain ⟨w, hchar, hw⟩ := hv.printCharAt_eq h hc hat
    obtain ⟨hstate, hmore⟩ := hv.next_state h hsmall hc hw (b := isPrintChar c || isC1 c)
    have hin := hv.index_lt h hc
    have hpos := length_bytes_pos F c
    dsimp only
    rw [if_pos ((base_add_lt_iff hsmall (by omega)).2 hin), hchar, Except.ok_bind,
      Except.wp_pure, Ctl.post_next]
    refine ⟨⟨_, _, post, _, hv.next hc, hstate⟩, ?_⟩
    have haddr := toNat_base_add hsmall (Nat.lt_add_right 4 hin)
    dsimp only
    omega

theorem readable_of_countByPtr (h : HoldsText m s F cs)
    (hsmall : s.base.toNat + s.writeCur.toNat + 4 < 2 ^ 64) (hin : endsInside F false cs = true)
    {r : Usz} (hok : countByPtr s (printCharAt (encodingOf F) m) = .ok r) :
    m.Readable (s.base + s.writeCur) 2 := by
  by_contra hbehind
  refine of_whileLoop_ok
    (fun st => ∃ n k post ahead, Visiting F cs n k post ahead ∧ endsInside F ahead post = true ∧
      st = (s.base + UInt64.ofNat n, UInt64.ofNat k)) (Q := fun _ => False) ?_
    ⟨0, 0, cs, false, .start F cs, hin, by simp⟩ hok
  rintro _ ctl ⟨n, k, post, ahead, hv, hin, rfl⟩ hbody
  obtain ⟨post, ahead, hv, hsame, hpair⟩ := hv.normal
  rw [← hsame] at hin
  cases post with
  | nil => exact absurd hin not_endsInside_nil
  | cons c post =>
    have hc : ahead = true → isPair c = true := fun ha => hpair ha c rfl
    have hlt :=
      (base_add_lt_iff hsmall (Nat.lt_add_right 4 (hv.index_lt h hc))).2 (hv.index_lt h hc)
    dsimp only at hbody
    rw [if_pos hlt] at hbody
    by_cases hlast : ahead = true ∧ post = []
    · obtain ⟨rfl, rfl⟩ := hlast
      rw [Except.bind_eq_ok] at hbody
      obtain ⟨r, hr, -⟩ := hbody
      exact absurd (hv.readable h (hc rfl) hr) hbehind
    · obtain ⟨w, hchar, hw⟩ := hv.printCharAt_eq h hc fun ha hpost => absurd ⟨ha, hpost⟩ hlast
      obtain ⟨hstate, -⟩ := hv.next_state h hsmall hc hw (b := isPrintChar c || isC1 c)
      rw [hchar] at hbody
      cases hbody
      refine ⟨_, _, post, _, hv.next hc, ?_, hstate⟩
      have hpost : post ≠ [] := by
        rintro rfl
        simp [endsInside, visits] at hin
        exact hlast ⟨hin.1, rfl⟩
      rw [← Visiting.endsInside_cons hpost]
      exact hin

theorem stringLen_printchar (h : HoldsText m s F cs) :
    stringLen s .printchar m = countByPtr s (printCharAt (encodingOf F) m) := by
  rw [stringLen, h.enc]
  cases F <;> rfl

end

/-- In UTF-8 and UTF-32 nothing is passed over. -/
theorem balanced_iff {F : Form} (hF : F ≠ .utf16le ∧ F ≠ .utf16be) (cs : List Char) :
    ((visits F false cs).countP overCounted = (visits F false cs).countP missed ↔
      ∀ c ∈ cs, isC1 c = false) ∧ endsInside F false cs = false := by
  have hvisits : visits F false cs = cs.map fun c => (c, false) := by
    have hwide (c : Char) : isWide F c = false := by simp [isWide, hF]
    induction cs with
    | nil => rfl
    | cons c cs ih =>
      rw [visits, hwide, Bool.and_false, ite_self, ih]
      rfl
  have hmissed : (missed ∘ fun c => (c, false)) = fun _ => false := rfl
  have hover : (overCounted ∘ fun c => (c, false)) = isC1 := rfl
  rw [endsInside, hvisits, List.countP_map, List.countP_map, hmissed, hover,
    List.countP_false, Function.const_apply, List.countP_eq_zero, List.getLast?_map]
  refine ⟨by simp, ?_⟩
  cases cs.getLast? <;> rfl

theorem stringLen_printchar_eq_iff {F : Form} {cs : List Char} {m : Mem}
    {s : String} (h : HoldsText m s F cs) (hsmall : s.base.toNat + s.writeCur.toNat + 4 < 2 ^ 64) :
    ((stringLen s .printchar m).wp fun n => n.toNat = cs.countP isPrintChar) ↔
      (visits F false cs).countP overCounted = (visits F false cs).countP missed ∧
        (endsInside F false cs = true → m.Readable (s.base + s.writeCur) 2) := by
  have hsum := countP_visits F false cs
  have hlen := h.length_lt
  have hcounted : (visits F false cs).countP counted < 2 ^ 64 :=
    Nat.lt_of_le_of_lt List.countP_le_length (by rw [length_visits]; exact hlen)
  rw [stringLen_printchar h]
  constructor
  · intro hwp
    obtain ⟨r, hr, hcount⟩ := Except.wp_iff.1 hwp
    have hbehind : endsInside F false cs = true → m.Readable (s.base + s.writeCur) 2 :=
      fun hin => readable_of_countByPtr h hsmall hin hr
    rw [countByPtr_visits h hsmall hbehind] at hr
    cases hr
    rw [UInt64.toNat_ofNat_of_lt_two_pow hcounted] at hcount
    exact ⟨by omega, hbehind⟩
  · rintro ⟨heven, hbehind⟩
    rw [countByPtr_visits h hsmall hbehind, Except.wp_ok, UInt64.toNat_ofNat_of_lt_two_pow hcounted]
    omega

/-- The printable values are counted exactly if the loop passes over as many of them as it counts
control characters, and can read what it reads behind the string. In UTF-8 and UTF-32 it counts
right exactly the texts without such control characters. -/
theorem stringLen_printchar_text_iff (F : Form) (cs : List Char) (m : Mem)
    (s : String) (h : HoldsText m s F cs) (hsmall : s.base.toNat + s.writeCur.toNat + 4 < 2 ^ 64) :
    (((stringLen s .printchar m).wp fun n => n.toNat = cs.countP isPrintChar) ↔
      (visits F false cs).countP overCounted = (visits F false cs).countP missed ∧
        (endsInside F false cs = true → m.Readable (s.base + s.writeCur) 2)) ∧
    (F ≠ .utf16le ∧ F ≠ .utf16be →
      (((stringLen s .printchar m).wp fun n => n.toNat = cs.countP isPrintChar) ↔
        ∀ c ∈ cs, isC1 c = false)) := by
  have hiff := stringLen_printchar_eq_iff h hsmall
  refine ⟨hiff, fun hF => ?_⟩
  obtain ⟨hbalanced, hinside⟩ := balanced_iff hF cs
  rw [hiff, hbalanced, hinside, and_iff_left fun h => absurd h Bool.false_ne_true]

/-! The two characters of `euroText`, and a control character. -/

theorem stringLen_printchar_text_iff_euro :
    (stringLen euroSrc .printchar euroMem).wp fun n => n.toNat = 2 :=
  have hsrc : HoldsText euroMem euroSrc .utf8 euroText :=
    ⟨rfl, by decide, Mem.holds_store fun _ _ => rfl⟩
  (stringLen_printchar_text_iff .utf8 euroText euroMem euroSrc hsrc (by decide)).1.2
    ⟨by decide +kernel, fun h => absurd h (by decide +kernel)⟩

/-- U+0085 in UTF-8 is not printable, and is counted. -/
theorem stringLen_printchar_control :
    HoldsText (cursorMem [0xc2, 0x85]) (cursorText 2) .utf8 ['\u0085'] ∧
    stringLen (cursorText 2) .printchar (cursorMem [0xc2, 0x85]) = .ok 1 ∧
    ¬ (stringLen (cursorText 2) .printchar (cursorMem [0xc2, 0x85])).wp fun n =>
      n.toNat = ['\u0085'].countP isPrintChar := by
  have hone : stringLen (cursorText 2) .printchar (cursorMem [0xc2, 0x85]) = .ok 1 :=
    whileLoop_of_iterate 2 (by decide) (by decide +kernel)
  refine ⟨⟨rfl, by decide, Mem.holds_store fun _ _ => rfl⟩, hone, ?_⟩
  rw [hone, Except.wp_ok]
  decide

end TinyBase
