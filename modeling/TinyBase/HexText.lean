import Mathlib.Data.Nat.Digits.Defs
import TinyBase.Classify

/-!
# Reading hexadecimal digits (`StringToHex`)

The digits from `A` on are read as `Char - 'A' + 10`, those from `a` on as well: there this is 32
too much. The number read is the one that is denoted, with 32 added in the place of each such digit,
modulo 2^64.
-/

namespace TinyBase
open Unicode

def isHexDigit (c : Char) : Bool := c.isDigit || (('A' ≤ c && c ≤ 'F') || ('a' ≤ c && c ≤ 'f'))

/-- The number that a hexadecimal digit stands for. -/
def hexValue (c : Char) : Nat :=
  if c.isDigit then c.toNat - '0'.toNat else if c ≤ 'F' then c.toNat - 'A'.toNat + 10
    else c.toNat - 'a'.toNat + 10

/-- The number that the digits denote, the first one being that of the highest place. -/
def hexNumber (cs : List Char) : Nat := Nat.ofDigits 16 (cs.map hexValue).reverse

/-- A digit that is a small letter. -/
def IsLowerHex (c : Char) : Prop := 'a' ≤ c ∧ c ≤ 'f'

instance (c : Char) : Decidable (IsLowerHex c) := inferInstanceAs (Decidable (_ ∧ _))

/-- The places of the small letters, as digits. -/
def lowerDigit (c : Char) : Nat := if IsLowerHex c then 1 else 0

/-! ### Numerals in base 16 -/

section
variable {ds : List Nat}

theorem ofDigits_add_mul (k : Nat) (f g : Char → Nat) (cs : List Char) :
    Nat.ofDigits 16 (cs.map fun c => f c + k * g c) = Nat.ofDigits 16 (cs.map f) +
      k * Nat.ofDigits 16 (cs.map g) := by
  induction cs with
  | nil => simp
  | cons c cs ih =>
    simp only [List.map_cons, Nat.ofDigits_cons, ih, Nat.mul_add, Nat.mul_left_comm k 16]
    omega

/-- Digits that are zero or one denote a small number. -/
theorem ofDigits_le_of_le_one (h : ∀ d ∈ ds, d ≤ 1) : 15 * Nat.ofDigits 16 ds < 16 ^ ds.length := by
  induction ds with
  | nil => simp
  | cons d ds ih =>
    rw [List.forall_mem_cons] at h
    have hrest := ih h.2
    rw [Nat.ofDigits_cons, List.length_cons, Nat.pow_succ]
    omega

theorem ofDigits_eq_zero_iff : Nat.ofDigits 16 ds = 0 ↔ ∀ d ∈ ds, d = 0 := by
  induction ds with
  | nil => simp
  | cons d ds ih =>
    rw [Nat.ofDigits_cons, List.forall_mem_cons, ← ih]
    omega

/-- Of such digits only the fifteen in the lowest places count modulo 2^64, if they are multiplied
by 32. -/
theorem mod_ofDigits_eq_zero_iff (h : ∀ d ∈ ds, d ≤ 1) :
    32 * Nat.ofDigits 16 ds % 2 ^ 64 = 0 ↔ ∀ d ∈ ds.take 15, d = 0 := by
  have hlow := @ofDigits_le_of_le_one (ds.take 15) fun d hd => h d (List.mem_of_mem_take hd)
  have hpow : 16 ^ (ds.take 15).length ≤ 16 ^ 15 :=
    Nat.pow_le_pow_right (by decide) (List.length_take_le 15 ds)
  rw [← ofDigits_eq_zero_iff]
  conv_lhs => rw [← List.take_append_drop 15 ds, Nat.ofDigits_append]
  rcases Nat.lt_or_ge 15 ds.length with hlt | hge
  · rw [List.length_take, Nat.min_eq_left (Nat.le_of_lt hlt)]
    omega
  · rw [List.drop_of_length_le hge, Nat.ofDigits_nil]
    omega

end

/-! ### The digits as they are read -/

section
variable {c : Char} {cs : List Char} {m : Mem} {src : String}

theorem charIsHexDigit_val (c : Char) : charIsHexDigit c.val = isHexDigit c := by
  rw [charIsHexDigit, isHexDigit, Bool.or_assoc]
  rfl

theorem isHexDigit_iff :
    isHexDigit c ↔ (48 ≤ c.toNat ∧ c.toNat ≤ 57) ∨ (65 ≤ c.toNat ∧ c.toNat ≤ 70) ∨
    (97 ≤ c.toNat ∧ c.toNat ≤ 102) := by
  rw [isHexDigit, Bool.or_eq_true, Bool.or_eq_true, Bool.and_eq_true, Bool.and_eq_true, isDigit_iff]
  simp only [decide_eq_true_iff, Char.le_def, UInt32.le_iff_toNat_le]
  rfl

theorem isLowerHex_iff : IsLowerHex c ↔ 97 ≤ c.toNat ∧ c.toNat ≤ 102 := by
  rw [IsLowerHex, Char.le_def, Char.le_def, UInt32.le_iff_toNat_le, UInt32.le_iff_toNat_le]
  rfl

/-- A digit is read as its value, with 32 added for a small letter. -/
theorem hexStep_digit (hc : isHexDigit c) (a : Nat) :
    hexStep (UInt64.ofNat a) c.val =
      some (UInt64.ofNat (16 * a + (hexValue c + 32 * lowerDigit c))) := by
  have hval : c.val.toUInt64 = UInt64.ofNat c.toNat := (UInt64.ofNat_uInt32ToNat ..).symm
  have hupper : c ≤ 'F' ↔ c.toNat ≤ 70 := by
    rw [Char.le_def, UInt32.le_iff_toNat_le]
    rfl
  have hchar := isHexDigit_iff.1 hc
  by_cases hdigit : c.isDigit
  · have hrange := isDigit_iff.1 hdigit
    have hlower : ¬ IsLowerHex c := fun h => absurd (isLowerHex_iff.1 h) (by omega)
    obtain ⟨d, hd⟩ := Nat.exists_eq_add_of_le hrange.1
    rw [hexStep, if_pos ((charIsDigit_iff c).2 hdigit), hval, hexValue, if_pos hdigit,
      lowerDigit, if_neg hlower, hd,
      show 48 + d - '0'.toNat = d from Nat.add_sub_cancel_left .., UInt64.ofNat_add,
        UInt64.ofNat_add, UInt64.ofNat_mul]
    refine congrArg some ?_
    grind
  · have hletter : 65 ≤ c.toNat := by
      rw [isDigit_iff] at hdigit
      omega
    obtain ⟨d, hd⟩ := Nat.exists_eq_add_of_le hletter
    have hvalue : hexValue c + 32 * lowerDigit c = d + 10 := by
      rw [hexValue, if_neg hdigit, lowerDigit]
      simp only [hupper, isLowerHex_iff, hd, show 'A'.toNat = 65 from rfl,
        show 'a'.toNat = 97 from rfl]
      split_ifs <;> omega
    rw [hexStep, if_neg (mt (charIsDigit_iff c).1 hdigit), charIsHexDigit_val, if_pos hc, hval,
      hvalue, hd, UInt64.ofNat_add, UInt64.ofNat_add, UInt64.ofNat_add, UInt64.ofNat_mul]
    refine congrArg some ?_
    grind

theorem hexStep_of_not (hc : ¬ isHexDigit c) (s : Usz) : hexStep s c.val = none := by
  have hdigit : ¬ charIsDigit c.val :=
    fun h => hc (by rw [isHexDigit, (charIsDigit_iff c).1 h, Bool.true_or])
  rw [hexStep, if_neg hdigit, charIsHexDigit_val, if_neg hc]

/-- What the loop has collected behind the digits `cs`. -/
theorem foldlM_hexStep (hcs : ∀ c ∈ cs, isHexDigit c) :
    cs.foldlM (fun s (c : Char) => hexStep s c.val) 0 =
    some (UInt64.ofNat
      (Nat.ofDigits 16 (cs.reverse.map fun c => hexValue c + 32 * lowerDigit c))) := by
  induction cs using List.reverseRecOn with
  | nil => rfl
  | append_singleton cs c ih =>
    have hc : isHexDigit c := hcs c (List.mem_append_right _ (List.mem_singleton_self c))
    rw [List.foldlM_append, ih fun d hd => hcs d (List.mem_append_left _ hd),
      List.reverse_append, List.reverse_singleton,
      List.singleton_append, List.map_cons, Nat.ofDigits_cons, Nat.add_comm,
      Option.bind_eq_bind, Option.bind_some, List.foldlM_cons, hexStep_digit hc]
    rfl

theorem foldlM_hexStep_of_not (hcs : ∃ c ∈ cs, ¬ isHexDigit c) (s : Usz) :
    cs.foldlM (fun s (c : Char) => hexStep s c.val) s = none := by
  induction cs generalizing s with
  | nil =>
    obtain ⟨c, hc, -⟩ := hcs
    cases hc
  | cons c cs ih =>
    have hrest (hc : isHexDigit c) : ∃ d ∈ cs, ¬ isHexDigit d := by
      obtain ⟨d, hd, hnot⟩ := hcs
      rcases List.mem_cons.1 hd with rfl | hd
      · exact absurd hc hnot
      · exact ⟨d, hd, hnot⟩
    rw [List.foldlM_cons]
    by_cases hc : isHexDigit c
    · cases hexStep s c.val with
      | none => rfl
      | some s' => exact ih (hrest hc) s'
    · rw [hexStep_of_not hc]
      rfl

/-- A well-formed string of the characters `cs`, in one of the six encodings. -/
inductive HoldsChars (m : Mem) (src : String) (cs : List Char) : Prop where
  | ascii : src.enc = .ascii → HoldsAscii m src cs → HoldsChars m src cs
  | unicode (F : Form) : HoldsText m src F cs → HoldsChars m src cs

theorem HoldsChars.readsChars (h : HoldsChars m src cs) : ReadsChars m src cs := by
  cases h with
  | ascii _ h => exact h.readsChars
  | unicode F h => exact h.readsChars

/-- The number read is the one that the digits denote if the fifteen in the lowest places are no
small letters. -/
theorem ofNat_eq_hexNumber_iff (cs : List Char) :
    UInt64.ofNat (Nat.ofDigits 16 (cs.reverse.map fun c => hexValue c + 32 * lowerDigit c)) =
      UInt64.ofNat (hexNumber cs) ↔ ∀ c ∈ cs.drop (cs.length - 15), ¬ IsLowerHex c := by
  have hone : ∀ d ∈ cs.reverse.map lowerDigit, d ≤ 1 := by
    intro d hd
    obtain ⟨c, -, rfl⟩ := List.mem_map.1 hd
    rw [lowerDigit]
    split_ifs <;> decide
  have hmod := mod_ofDigits_eq_zero_iff hone
  rw [ofDigits_add_mul, hexNumber, ← List.map_reverse, ← UInt64.toNat_inj,
    UInt64.toNat_ofNat', UInt64.toNat_ofNat']
  rw [← List.map_take, List.forall_mem_map, List.take_reverse] at hmod
  simp only [List.mem_reverse, lowerDigit, ite_eq_right_iff, Nat.one_ne_zero, imp_false] at hmod
  rw [← hmod]
  omega

end

/-- What `StringToHex` is to return. -/
def ReadsHex (cs : List Char) (x : Res Usz) : Prop :=
  ((∀ c ∈ cs, isHexDigit c) → cs.length ≤ 16 → x = .ok (UInt64.ofNat (hexNumber cs))) ∧
    ((∃ c ∈ cs, ¬ isHexDigit c) → x = .ok uszMax)

/-- `StringToHex` reads up to sixteen digits if and only if none of the fifteen in the lowest places
is a small letter: the one in the sixteenth is too large by a multiple of 2^64. -/
theorem stringToHex_readsHex_iff (m : Mem) (src : String) (cs : List Char)
    (h : HoldsChars m src cs) : ReadsHex cs (stringToHex src m) ↔
      ((∀ c ∈ cs, isHexDigit c) → cs.length ≤ 16 →
        ∀ c ∈ cs.drop (cs.length - 15), ¬ IsLowerHex c) := by
  rw [h.readsChars.stringToHex_eq, hexOf, ReadsHex]
  have hother : (∃ c ∈ cs, ¬ isHexDigit c) →
      Except.ok ((cs.foldlM (fun s c => hexStep s c.val) 0).getD uszMax) =
      (.ok uszMax : Res Usz) := fun hcs => by
    rw [foldlM_hexStep_of_not hcs]
    rfl
  rw [and_iff_left hother]
  refine forall_congr' fun hcs => imp_congr_right fun _ => ?_
  rw [foldlM_hexStep hcs, Option.getD_some, Except.ok.injEq, ofNat_eq_hexNumber_iff]

theorem stringToHex_readsHex_five :
    ReadsHex "BEEF5".toList
      (stringToHex (digitsSrc "BEEF5".toList) (digitsMem "BEEF5".toList)) := by
  have h : HoldsAscii (digitsMem "BEEF5".toList) (digitsSrc "BEEF5".toList) "BEEF5".toList :=
    ⟨by simp, by decide, Mem.holds_store fun _ _ => rfl⟩
  exact (stringToHex_readsHex_iff _ _ _ (.ascii rfl h)).2 fun _ _ => by simp [IsLowerHex]

/-- `a` is read as 42. -/
theorem stringToHex_misreads_a : HoldsChars (digitsMem ['a']) (digitsSrc ['a']) ['a'] ∧
    stringToHex (digitsSrc ['a']) (digitsMem ['a']) = .ok 42 ∧
    ¬ ReadsHex ['a'] (stringToHex (digitsSrc ['a']) (digitsMem ['a'])) := by
  have h : HoldsAscii (digitsMem ['a']) (digitsSrc ['a']) ['a'] :=
    ⟨by simp, by decide, Mem.holds_store fun _ _ => rfl⟩
  have hrun : stringToHex (digitsSrc ['a']) (digitsMem ['a']) = .ok 42 := by
    rw [h.readsChars.stringToHex_eq]
    decide +kernel
  refine ⟨.ascii rfl h, hrun, fun hreads => ?_⟩
  have hten := hreads.1 (List.forall_mem_singleton.2 (by decide)) (by decide)
  rw [hrun] at hten
  exact absurd hten (by decide +kernel)

end TinyBase
