import TinyBase.FloatRoundTrip

/-!
# The scratch array of `AppendFloatToString`

Where the text of a float is laid, against how many characters of it are appended: the two are
counted separately. The characters laid are those of the array up to the last one that is written.
-/

namespace TinyBase

/-- `x` lays the characters `text` into the array, or faults where they do not fit into it. -/
def Lays (enc : Encoding) (x : Res (List UInt8)) (text : List UInt8) : Prop :=
  (∃ ptr digits, x = .ok digits ∧ LaidAt enc ptr digits text) ∨
    128 < text.length * (digitSize enc).toNat ∧ ∃ e, x = .error e

section
variable {enc : Encoding} {ptr : Usz} {digits head text : List UInt8}
  {f : List UInt8 → Res (List UInt8)}

theorem LaidAt.lays (h : LaidAt enc ptr digits text) : Lays enc (.ok digits) text :=
  .inl ⟨ptr, digits, rfl, h⟩

theorem lays_setDigit {b : UInt8} (h : LaidAt enc ptr digits head)
    (hlen : head.length + 1 ≤ text.length)
    (hf : ∀ digits', LaidAt enc (ptr + digitSize enc) digits' (head ++ [b]) →
      Lays enc (f digits') text) :
    Lays enc (setDigit digits (ptr + digitOffset enc) b >>= f) text := by
  cases hset : setDigit digits (ptr + digitOffset enc) b with
  | ok digits' => exact hf digits' (h.put hset)
  | error e =>
    exact .inr ⟨Nat.lt_of_lt_of_le (h.lt_of_setDigit_error hset) (Nat.mul_le_mul_right _ hlen), e,
      rfl⟩

theorem lays_layDigits {ι : Type} {lastDigit : ι → UInt8} {rest : ι → ι}
    {numDigits : Usz} {integer : ι} (h : LaidAt enc ptr digits head)
    (hlen : head.length + numDigits.toNat ≤ text.length)
    (hf : ∀ digits', LaidAt enc (ptr + numDigits * digitSize enc) digits'
      (head ++ laidDigits lastDigit rest numDigits.toNat integer) → Lays enc (f digits') text) :
    Lays enc (layDigits lastDigit rest ptr numDigits enc integer digits >>= f) text := by
  cases hlay : layDigits lastDigit rest ptr numDigits enc integer digits with
  | ok digits' => exact hf digits' (h.lay hlay)
  | error e =>
    exact .inr ⟨Nat.lt_of_lt_of_le (h.lt_of_layDigits_error hlay) (Nat.mul_le_mul_right _ hlen), e,
      rfl⟩

theorem lays_layMinus {minus : Bool} {f : Usz × List UInt8 → Res (List UInt8)}
    (hf : ∀ ptr digits, LaidAt enc ptr digits (if minus then [45] else []) →
      Lays enc (f (ptr, digits)) text) :
    Lays enc (layMinus minus enc emptyFloatDigits >>= f) text := by
  obtain ⟨ptr, digits, hok, hlaid⟩ := layMinus_ok minus enc
  rw [hok]
  exact hf ptr digits hlaid

end

/-! ### The two layouts -/

section
variable {φ : Type} (F : FloatOps φ) (float : φ) (decimalPlaces : Usz)

/-- The part of `_AppendFloatToStringRegular` that writes to `Digits`. -/
def layRegular (numDigits : Usz) (enc : Encoding) : Res (List UInt8) := do
  let (ptr, digits) ← layMinus (F.lt float (F.ofInt 0)) enc emptyFloatDigits
  let digits ← layDigits iszDigit (· / 10) ptr numDigits enc (floatHi F float) digits
  let clipped := regularPlaces F float decimalPlaces
  layFraction (floatDecimal F float clipped) clipped (ptr + numDigits * digitSize enc) enc digits

/-- The part of `_AppendFloatToStringInSN` that writes to `Digits`. -/
def layInSN (enc : Encoding) : Res (List UInt8) := do
  let (ptr, digits) ← layMinus (F.lt float (F.ofInt 0)) enc emptyFloatDigits
  let (float, exp, expSign) ← scaled F float
  let digits ← setDigit digits (ptr + digitOffset enc) (F.toChar float + 48)
  let digits ← setDigit digits (ptr + (digitSize enc + digitOffset enc)) 46
  let (ptr, digits) ← layDecimals (scaledDecimal F float decimalPlaces) decimalPlaces
      (ptr + digitSize enc * 2) enc digits
  layExponent exp expSign ptr enc digits

/-- The characters that are laid. -/
def laidRegular : List UInt8 :=
  (if F.lt float (F.ofInt 0) then [45] else []) ++
    (laidDigits iszDigit (· / 10) (digitCount (floatHi F float)) (floatHi F float) ++
      if regularPlaces F float decimalPlaces > 0 then
        46 :: laidDigits uszDigit (· / 10) (regularPlaces F float decimalPlaces).toNat
          (floatDecimal F float (regularPlaces F float decimalPlaces))
      else [])

def laidInSN (y : φ) (exp : Usz) (expSign : Isz) : List UInt8 :=
  (if F.lt float (F.ofInt 0) then [45] else []) ++ [F.toChar y + 48, 46] ++
    (if decimalPlaces > 0 then
      laidDigits uszDigit (· / 10) decimalPlaces.toNat (scaledDecimal F y decimalPlaces)
      else [48]) ++ [101, if expSign > 0 then 43 else 45] ++ laidDigits uszDigit (· / 10) 3 exp

variable {F float decimalPlaces} {enc : Encoding}

theorem lays_layRegular :
    Lays enc (layRegular F float decimalPlaces (UInt64.ofNat (digitCount (floatHi F float))) enc)
    (laidRegular F float decimalPlaces) := by
  have hcount : (UInt64.ofNat (digitCount (floatHi F float))).toNat =
      digitCount (floatHi F float) :=
    UInt64.toNat_ofNat_of_lt_two_pow (Nat.lt_of_le_of_lt (digitCount_le _).2 (by decide))
  rw [layRegular]
  refine lays_layMinus fun ptr digits h0 => lays_layDigits h0 ?_ fun digits h1 => ?_
  · rw [hcount, laidRegular, List.length_append, List.length_append, length_laidDigits]
    omega
  · rw [hcount] at h1
    rw [layFraction, laidRegular, ← List.append_assoc]
    generalize (if F.lt float (F.ofInt 0) then [(45 : UInt8)] else []) ++
      laidDigits iszDigit (· / 10) (digitCount (floatHi F float)) (floatHi F float) = head at h1 ⊢
    split_ifs with hclip
    · refine lays_setDigit h1 ?_ fun digits h2 => ?_
      · rw [List.length_append, List.length_cons]
        omega
      · rw [← bind_pure (layDigits ..)]
        refine lays_layDigits h2 ?_ fun digits h3 => ?_
        · simp only [List.length_append, List.length_cons, length_laidDigits, List.length_nil]
          omega
        · rw [List.append_assoc, List.singleton_append] at h3
          exact h3.lays
    · rw [List.append_nil]
      exact h1.lays

theorem lays_layInSN {y : φ} {exp : Usz} {expSign : Isz}
    (hscaled : scaled F float = .ok (y, exp, expSign)) :
    Lays enc (layInSN F float decimalPlaces enc)
      (laidInSN F float decimalPlaces y exp expSign) := by
  have htwo : ∀ ptr : Usz, ptr + digitSize enc * 2 = ptr + digitSize enc + digitSize enc :=
    fun ptr => by grind
  have hexp : ∀ ptr digits head, LaidAt enc ptr digits head →
      Lays enc (layExponent exp expSign ptr enc digits)
        (head ++ [101, if expSign > 0 then 43 else 45] ++ laidDigits uszDigit (· / 10) 3 exp) := by
    intro ptr digits head h
    have hlen : (head ++ [101, if expSign > 0 then (43 : UInt8) else 45] ++
        laidDigits uszDigit (· / 10) 3 exp).length = head.length + 5 := by
      rw [List.length_append, List.length_append, length_laidDigits]; rfl
    rw [layExponent, htwo, ← UInt64.add_assoc]
    refine lays_setDigit h (by omega) fun digits h1 =>
      lays_setDigit h1 (by rw [List.length_append, hlen]; simp) fun digits h2 => ?_
    rw [List.append_assoc, List.singleton_append] at h2
    rw [← bind_pure (layDigits ..)]
    exact lays_layDigits h2 (by rw [List.length_append, hlen]; simp) fun digits h3 => h3.lays
  rw [layInSN]
  refine lays_layMinus fun ptr digits h0 => ?_
  dsimp only
  rw [hscaled, Except.ok_bind]
  dsimp only
  rw [htwo, ← UInt64.add_assoc]
  refine lays_setDigit h0 ?_ fun digits h1 => lays_setDigit h1 ?_ fun digits h2 => ?_
  · simp only [laidInSN, List.length_append, List.length_cons]
    omega
  · simp only [laidInSN, List.length_append, List.length_cons, List.length_nil]
    omega
  rw [List.append_assoc, List.singleton_append] at h2
  rw [layDecimals, laidInSN]
  generalize (if F.lt float (F.ofInt 0) then [(45 : UInt8)] else []) ++ [F.toChar y + 48, 46] = head
    at h2 ⊢
  by_cases hdec : decimalPlaces > 0
  · rw [if_pos hdec, if_pos hdec, bind_assoc]
    refine lays_layDigits h2 ?_ fun digits h3 => hexp _ _ _ h3
    simp only [List.length_append, length_laidDigits]
    omega
  · rw [if_neg hdec, if_neg hdec, bind_assoc]
    refine lays_setDigit h2 ?_ fun digits h3 => hexp _ _ _ h3
    simp only [List.length_append, List.length_cons, List.length_nil]
    omega

end

/-! ### How many characters are appended -/

/-- The run stays in the array, and where it returns true it has appended as many bytes as those of
the text `laid`. -/
def AppendsWhole (x : Res (Bool × String × Mem)) (dst : String) (laid : Res (List UInt8)) : Prop :=
  ∃ appended dst' m', x = .ok (appended, dst', m') ∧ (appended = true → ∃ text, laid = .ok text ∧
    dst'.writeCur.toNat = dst.writeCur.toNat + text.length * (digitSize dst.enc).toNat)

theorem appendsWhole_iff {m : Mem} {dst : String} (hdst : Writable m dst) {total : Usz}
    {layout : Res (List UInt8)} {text : List UInt8} (hlays : Lays dst.enc layout text)
    (htotal : text.length * (digitSize dst.enc).toNat ≤ 128 →
      (total * digitSize dst.enc).toNat ≤ 128) :
    AppendsWhole (if dst.size - dst.writeCur ≥ total * digitSize dst.enc then
      layout >>= fun digits =>
        appendToString (localObject digits) 0 (total * digitSize dst.enc) dst m
      else pure (false, dst, m)) dst (.ok text) ↔
      dst.size - dst.writeCur < total * digitSize dst.enc ∨
      text.length * (digitSize dst.enc).toNat ≤ 128 ∧
        (total * digitSize dst.enc).toNat = text.length * (digitSize dst.enc).toNat := by
  by_cases hroom : dst.size - dst.writeCur ≥ total * digitSize dst.enc
  · rw [if_pos hroom, or_iff_right (UInt64.not_lt.2 hroom)]
    rcases hlays with ⟨ptr, digits, rfl, hlaid⟩ | ⟨hout, e, rfl⟩
    · have hlen : (total * digitSize dst.enc).toNat ≤ digits.length := by
        rw [hlaid.length_digits]
        exact htotal hlaid.fits
      have hbytes : ((List.range (total * digitSize dst.enc).toNat).map (digits.getD · 0)).length =
          (total * digitSize dst.enc).toNat := by rw [List.length_map, List.length_range]
      rw [ge_iff_le, UInt64.le_iff_toNat_le, hdst.toNat_room] at hroom
      have hrun := (appendToString_spec hdst ((localObject_reads digits).mono hlen)).of_le
        (by rw [hbytes]; exact hroom)
      have hgrown := hdst.toNat_grown hroom
      rw [hbytes] at hrun
      rw [Except.ok_bind, hrun]
      constructor
      · rintro ⟨_, _, _, hok, hwhole⟩
        cases hok
        obtain ⟨text', htext, hcur⟩ := hwhole rfl
        cases htext
        exact ⟨hlaid.fits, by omega⟩
      · rintro ⟨-, heq⟩
        exact ⟨_, _, _, rfl, fun _ => ⟨text, rfl, by rw [hgrown, heq]⟩⟩
    · refine iff_of_false ?_ fun h => absurd h.1 (Nat.not_le.2 hout)
      rintro ⟨_, _, _, hok, -⟩
      cases hok
  · rw [if_neg hroom]
    exact iff_of_true ⟨_, _, _, rfl, nofun⟩ (.inl (UInt64.not_le.1 hroom))

section
variable {φ : Type} (F : FloatOps φ) (float : φ) (decimalPlaces : Usz)

/-- The number of characters, as the writer counts them. -/
def floatTotal (inSN : Bool) : Usz :=
  if inSN then F.minus float + 2 + decimalPlaces + 5 else regularTotal F float decimalPlaces

/-- The characters that are laid. -/
def floatLaid (inSN : Bool) : Res (List UInt8) :=
  if inSN then (scaled F float).map fun res => laidInSN F float decimalPlaces res.1 res.2.1 res.2.2
  else .ok (laidRegular F float decimalPlaces)

/-- Sign and digits of the integer part. -/
def headLength : Nat := (F.minus float).toNat + digitCount (floatHi F float)

/-- The text has room in the array, and as many characters as are counted. -/
def FloatFits (inSN : Bool) (enc : Encoding) : Prop :=
  if inSN then 0 < decimalPlaces.toNat ∧
    ((F.minus float).toNat + 7 + decimalPlaces.toNat) * (digitSize enc).toNat ≤ 128
  else decimalPlaces.toNat = 0 ∨ headLength F float ≤ 18 ∨
    headLength F float = 20 ∧ (21 + decimalPlaces.toNat) * (digitSize enc).toNat ≤ 128

instance (inSN : Bool) (enc : Encoding) : Decidable (FloatFits F float decimalPlaces inSN enc) :=
  match inSN with
  | true => inferInstanceAs (Decidable (0 < decimalPlaces.toNat ∧
      ((F.minus float).toNat + 7 + decimalPlaces.toNat) * (digitSize enc).toNat ≤ 128))
  | false => inferInstanceAs (Decidable (decimalPlaces.toNat = 0 ∨ headLength F float ≤ 18 ∨
      headLength F float = 20 ∧ (21 + decimalPlaces.toNat) * (digitSize enc).toNat ≤ 128))

/-- What is relied on of the floating-point numbers: times ten, a number below one grows, and above
ten it shrinks when it is divided by it; `rank` is the place of a number among the others. -/
structure FloatOps.Scalable (F : FloatOps φ) (finite : φ → Prop) (rank : φ → Nat) : Prop where
  rank_lt : ∀ x, finite x → rank x < 2 ^ 64
  mul_neg_one : ∀ x, finite x → F.lt x (F.ofInt 0) →
    finite (F.mul x (F.ofInt (-1))) ∧ F.lt (F.ofInt 0) (F.mul x (F.ofInt (-1)))
  mul_ten : ∀ x, finite x → F.lt (F.ofInt 0) x → F.lt x (F.ofInt 1) →
    (finite (F.mul x (F.ofInt 10)) ∧
    F.lt (F.ofInt 0) (F.mul x (F.ofInt 10))) ∧ rank x < rank (F.mul x (F.ofInt 10))
  div_ten : ∀ x, finite x → F.lt (F.ofInt 10) x →
    finite (F.div x (F.ofInt 10)) ∧ rank (F.div x (F.ofInt 10)) < rank x

variable {F float decimalPlaces} {finite : φ → Prop} {rank : φ → Nat}

namespace FloatOps.Scalable
variable {x : φ}

theorem scaleUp_ok (hF : F.Scalable finite rank) (hx : finite x) (hpos : F.lt (F.ofInt 0) x) :
    ∃ res, scaleUp F x = .ok res := by
  have hends : (scaleUp F x).wp fun _ => True := by
    refine wp_whileLoop (fun st => finite st.1 ∧ F.lt (F.ofInt 0) st.1)
      (fun st => 2 ^ 64 - 1 - rank st.1) ?_ (x, 0)
      ⟨hx, hpos⟩ (Nat.lt_of_le_of_lt (Nat.sub_le ..) (by decide))
    rintro ⟨y, exp⟩ ⟨hy, hpos⟩
    dsimp only at hy hpos ⊢
    split_ifs with hlt
    · obtain ⟨hnext, hgrows⟩ := hF.mul_ten y hy hpos hlt
      have hbound := hF.rank_lt _ hnext.1
      exact ⟨hnext, by dsimp only; omega⟩
    · exact trivial
  obtain ⟨res, hok, -⟩ := Except.wp_iff.1 hends
  exact ⟨res, hok⟩

theorem scaleDown_ok (hF : F.Scalable finite rank) (hx : finite x) :
    ∃ res, scaleDown F x = .ok res := by
  have hends : (scaleDown F x).wp fun _ => True := by
    refine wp_whileLoop (fun st => finite st.1) (fun st => rank st.1) ?_ (x, 0) hx (hF.rank_lt x hx)
    rintro ⟨y, exp⟩ hy
    dsimp only at hy ⊢
    split_ifs with hlt
    · exact hF.div_ten y hy hlt
    · exact trivial
  obtain ⟨res, hok, -⟩ := Except.wp_iff.1 hends
  exact ⟨res, hok⟩

theorem scaled_ok (hF : F.Scalable finite rank) (hfin : finite float)
    (hne : F.lt float (F.ofInt 0) ∨ F.lt (F.ofInt 0) float) : ∃ res, scaled F float = .ok res := by
  rw [scaled]
  dsimp only
  have hpos : ∃ x, (if F.lt float (F.ofInt 0) then F.mul float (F.ofInt (-1)) else float) = x ∧
      finite x ∧ F.lt (F.ofInt 0) x := by
    refine ⟨_, rfl, ?_⟩
    split_ifs with hneg
    · exact hF.mul_neg_one float hfin hneg
    · exact ⟨hfin, hne.resolve_left hneg⟩
  obtain ⟨x, hx, hxfin, hxpos⟩ := hpos
  rw [hx]
  split_ifs
  · obtain ⟨res, hup⟩ := hF.scaleUp_ok hxfin hxpos
    rw [hup]
    exact ⟨_, rfl⟩
  · obtain ⟨res, hdown⟩ := hF.scaleDown_ok hxfin
    rw [hdown]
    exact ⟨_, rfl⟩

end FloatOps.Scalable

/-! ### The regular layout -/

theorem headLength_le (F : FloatOps φ) (float : φ) :
    0 < headLength F float ∧ headLength F float ≤ 20 := by
  have hcount := digitCount_le (floatHi F float)
  have hminus := toNat_minus_le F float
  rw [headLength]
  omega

/-- The clipping leaves room for 20 characters, but for a head of 20 it does nothing. -/
theorem toNat_regularPlaces (F : FloatOps φ) (float : φ) (decimalPlaces : Usz) :
    (regularPlaces F float decimalPlaces).toNat =
      if headLength F float = 20 then decimalPlaces.toNat
      else min (19 - headLength F float) decimalPlaces.toNat := by
  have hcount := digitCount_le (floatHi F float)
  have hminus := toNat_minus_le F float
  have hplaces := decimalPlaces.toNat_lt
  have hspace : (20 - UInt64.ofNat (digitCount (floatHi F float)) - F.minus float - 1 : Usz).toNat =
      if headLength F float = 20 then 2 ^ 64 - 1 else 19 - headLength F float := by
    rw [headLength]
    simp only [UInt64.toNat_sub, UInt64.toNat_ofNat', UInt64.reduceToNat]
    generalize (F.minus float).toNat = minus at hminus ⊢
    generalize digitCount (floatHi F float) = count at hcount ⊢
    split_ifs <;> omega
  rw [regularPlaces, clippedPlaces]
  dsimp only
  by_cases hpos : decimalPlaces > 0
  · rw [if_pos hpos]
    by_cases hhead : headLength F float = 20
    · rw [if_pos hhead] at hspace ⊢
      split_ifs with hle
      · rw [UInt64.le_iff_toNat_le, hspace] at hle
        rw [hspace]
        omega
      · rfl
    · rw [if_neg hhead] at hspace ⊢
      split_ifs with hle
      · rw [UInt64.le_iff_toNat_le, hspace] at hle
        rw [hspace]
        omega
      · rw [UInt64.le_iff_toNat_le, hspace] at hle
        omega
  · rw [if_neg hpos]
    rw [gt_iff_lt, UInt64.lt_iff_toNat_lt, UInt64.toNat_zero] at hpos
    split_ifs <;> omega

theorem length_laidRegular : (laidRegular F float decimalPlaces).length = headLength F float +
    if (regularPlaces F float decimalPlaces).toNat = 0 then 0
      else (regularPlaces F float decimalPlaces).toNat + 1 := by
  have hclip : regularPlaces F float decimalPlaces > 0 ↔
      ¬ (regularPlaces F float decimalPlaces).toNat = 0 := by
    rw [gt_iff_lt, UInt64.lt_iff_toNat_lt, UInt64.toNat_zero]
    exact Nat.pos_iff_ne_zero
  rw [laidRegular, List.length_append, List.length_append, length_laidDigits, ← toNat_minus,
    headLength, Nat.add_assoc]
  by_cases hzero : (regularPlaces F float decimalPlaces).toNat = 0
  · rw [if_pos hzero, if_neg (by rw [hclip]; exact not_not.2 hzero)]
    rfl
  · rw [if_neg hzero, if_pos (hclip.2 hzero), List.length_cons, length_laidDigits]

/-- `text` characters are counted, `laid` of them are there. -/
theorem counted_iff {size total laid text places head decimal : Nat} (hpos : 0 < size)
    (hsize : size ≤ 4) (hhead : head ≤ 20) (htotal : total ≤ text ∧ (text ≤ 128 → total = text))
    (hlen : text = head + if 0 < decimal then places + 1 else 0)
    (hplaces : places = if head = 20 then decimal else min (19 - head) decimal)
    (hlaid : laid = head + if places = 0 then 0 else places + 1) :
    laid * size ≤ 128 ∧ total * size % 2 ^ 64 = laid * size ↔
      decimal = 0 ∨ head ≤ 18 ∨ head = 20 ∧ (21 + decimal) * size ≤ 128 := by
  have hwhole : ∀ n, n * size ≤ 128 → n * size % 2 ^ 64 = n * size :=
    fun n hn => Nat.mod_eq_of_lt (by omega)
  have hshort : ∀ n, n ≤ 20 → n * size ≤ 128 :=
    fun n hn => Nat.le_trans (Nat.mul_le_mul hn hsize) (by decide)
  rcases Nat.eq_zero_or_pos decimal with rfl | hdec
  · -- the head alone
    have hplaces0 : places = 0 := by rw [hplaces]; split_ifs <;> omega
    rw [if_pos hplaces0] at hlaid
    rw [if_neg (by decide)] at hlen
    obtain rfl : total = laid := by omega
    have hfits := hshort total (by omega)
    exact iff_of_true ⟨hfits, hwhole _ hfits⟩ (.inl rfl)
  rw [if_pos hdec] at hlen
  rcases Nat.lt_or_ge head 19 with hlt | hge
  · rw [if_neg (by omega)] at hplaces
    rw [if_neg (by omega)] at hlaid
    obtain rfl : total = laid := by omega
    have hfits := hshort total (by omega)
    exact iff_of_true ⟨hfits, hwhole _ hfits⟩ (.inr (.inl (by omega)))
  rcases Nat.eq_or_lt_of_le hge with rfl | hgt
  · -- no place is left, but the dot is counted
    rw [if_neg (by decide)] at hplaces
    obtain rfl : places = 0 := by omega
    obtain rfl : laid = 19 := hlaid
    obtain rfl : total = 20 := by omega
    refine iff_of_false ?_ (by omega)
    rw [hwhole 20 (hshort 20 (Nat.le_refl 20))]
    omega
  · obtain rfl : head = 20 := by omega
    rw [if_pos rfl] at hplaces
    subst hplaces
    rw [if_neg (by omega)] at hlaid
    obtain rfl : laid = 21 + places := by omega
    constructor
    · exact fun h => .inr (.inr ⟨rfl, h.1⟩)
    · intro h
      have hfits : (21 + places) * size ≤ 128 := by
        rcases h with h | h | h
        · omega
        · omega
        · exact h.2
      have hle : 21 + places ≤ 128 := Nat.le_trans (Nat.le_mul_of_pos_right _ hpos) hfits
      obtain rfl : total = 21 + places := by omega
      exact ⟨hfits, hwhole _ hfits⟩

theorem regular_fits_iff (F : FloatOps φ) (float : φ) (decimalPlaces : Usz) (enc : Encoding) :
    (laidRegular F float decimalPlaces).length * (digitSize enc).toNat ≤ 128 ∧
      (regularTotal F float decimalPlaces * digitSize enc).toNat =
        (laidRegular F float decimalPlaces).length * (digitSize enc).toNat ↔
        FloatFits F float decimalPlaces false enc := by
  obtain ⟨hoff, hsize⟩ := digitSize_le enc
  have hlen := @length_regularText _ F float decimalPlaces
  have hpos : decimalPlaces > 0 ↔ 0 < decimalPlaces.toNat := UInt64.lt_iff_toNat_lt
  rw [length_regularTail, ← Nat.add_assoc, ← headLength] at hlen
  simp only [hpos] at hlen
  rw [FloatFits, if_neg (by decide), UInt64.toNat_mul]
  exact counted_iff (Nat.lt_of_le_of_lt (Nat.zero_le _) hoff) hsize
    (headLength_le F float).2 toNat_regularTotal hlen
    (toNat_regularPlaces F float decimalPlaces) length_laidRegular

theorem counted_le_of_fits {enc : Encoding} {total : Usz} {n : Nat} (htotal : total.toNat ≤ n)
    (hfits : n * (digitSize enc).toNat ≤ 128) : (total * digitSize enc).toNat ≤ 128 := by
  rw [UInt64.toNat_mul]
  exact Nat.le_trans (Nat.mod_le ..) (Nat.le_trans (Nat.mul_le_mul_right _ htotal) hfits)

theorem length_regularText_le :
    (regularText F float decimalPlaces).length ≤ (laidRegular F float decimalPlaces).length ∨
    (regularText F float decimalPlaces).length ≤ 20 := by
  have hlen := @length_regularText _ F float decimalPlaces
  have hlaid := @length_laidRegular _ F float decimalPlaces
  have hplaces := toNat_regularPlaces F float decimalPlaces
  have hhead := (headLength_le F float).2
  have hpos : decimalPlaces > 0 ↔ 0 < decimalPlaces.toNat := UInt64.lt_iff_toNat_lt
  rw [length_regularTail, ← Nat.add_assoc, ← headLength] at hlen
  simp only [hpos] at hlen
  rw [hlen, hlaid]
  by_cases hzero : (regularPlaces F float decimalPlaces).toNat = 0
  · rw [if_pos hzero]
    rw [hzero] at hplaces ⊢
    split_ifs at hplaces ⊢ <;> omega
  · rw [if_neg hzero]
    exact .inl (by split_ifs <;> omega)

theorem appendFloatToStringRegular_eq {dst : String} {m : Mem} :
    appendFloatToStringRegular F float decimalPlaces dst m =
    if dst.size - dst.writeCur ≥ regularTotal F float decimalPlaces * digitSize dst.enc then
      layRegular F float decimalPlaces (UInt64.ofNat (digitCount (floatHi F float))) dst.enc >>=
      fun digits =>
        appendToString (localObject digits) 0
        (regularTotal F float decimalPlaces * digitSize dst.enc) dst m
    else pure (false, dst, m) := by
  obtain ⟨numDigits, hnum, hcount⟩ := Except.wp_iff.1 (numberOfDigits_spec (floatHi F float))
  obtain rfl : numDigits = UInt64.ofNat (digitCount (floatHi F float)) := by
    rw [← hcount, UInt64.ofNat_toNat]
  obtain ⟨ptr, digits, hminus, -⟩ := layMinus_ok (F.lt float (F.ofInt 0)) dst.enc
  rw [appendFloatToStringRegular, hnum, Except.ok_bind, layRegular, hminus]
  simp only [Except.ok_bind, bind_assoc]
  rfl

/-! ### The scientific layout -/

theorem length_laidInSN {y : φ} {exp : Usz} {expSign : Isz} :
    (laidInSN F float decimalPlaces y exp expSign).length =
    (F.minus float).toNat + 7 + if 0 < decimalPlaces.toNat then decimalPlaces.toNat else 1 := by
  have hpos : decimalPlaces > 0 ↔ 0 < decimalPlaces.toNat := UInt64.lt_iff_toNat_lt
  have hthree : (3 : Usz).toNat = 3 := rfl
  simp only [laidInSN, List.length_append, ← toNat_minus, length_laidDigits,
    List.length_cons, List.length_nil, hpos]
  split_ifs
  · rw [length_laidDigits]
    omega
  · rfl

theorem inSN_fits_iff {y : φ} {exp : Usz} {expSign : Isz} {enc : Encoding} :
    (laidInSN F float decimalPlaces y exp expSign).length * (digitSize enc).toNat ≤ 128 ∧
      ((F.minus float + 2 + decimalPlaces + 5) * digitSize enc).toNat =
        (laidInSN F float decimalPlaces y exp expSign).length * (digitSize enc).toNat ↔
      FloatFits F float decimalPlaces true enc := by
  obtain ⟨hoff, hsize⟩ := digitSize_le enc
  have hminus := toNat_minus_le F float
  have hwhole : (F.minus float + 2 + decimalPlaces + 5).toNat =
      ((F.minus float).toNat + 7 + decimalPlaces.toNat) % 2 ^ 64 := by
    simp only [UInt64.toNat_add, UInt64.reduceToNat]
    omega
  rw [FloatFits, if_pos rfl, length_laidInSN, UInt64.toNat_mul, hwhole]
  generalize (F.minus float).toNat = minus at hminus ⊢
  generalize (digitSize enc).toNat = size at hoff hsize ⊢
  have hpos : 0 < size := Nat.lt_of_le_of_lt (Nat.zero_le _) hoff
  rcases Nat.eq_zero_or_pos decimalPlaces.toNat with hzero | hdec
  · -- seven characters and the sign are counted, and eight are laid
    have hsmall : (minus + 7) * size ≤ 8 * 4 := Nat.mul_le_mul (Nat.add_le_add_right hminus 7) hsize
    rw [hzero, if_neg (by decide), Nat.add_zero, Nat.mod_eq_of_lt (a := minus + 7) (by omega),
      Nat.mod_eq_of_lt (a := (minus + 7) * size) (by omega), Nat.succ_mul]
    exact iff_of_false (fun h => by omega) fun h => absurd h.1 (by decide)
  · rw [if_pos hdec]
    refine ⟨fun h => ⟨hdec, h.1⟩, fun h => ⟨h.2, ?_⟩⟩
    have hle : minus + 7 + decimalPlaces.toNat ≤ 128 :=
      Nat.le_trans (Nat.le_mul_of_pos_right _ hpos) h.2
    rw [Nat.mod_eq_of_lt (a := minus + 7 + decimalPlaces.toNat) (by omega)]
    exact Nat.mod_eq_of_lt (by omega)

theorem appendFloatToStringInSN_eq {dst : String} {m : Mem} :
    appendFloatToStringInSN F float decimalPlaces dst m =
    if dst.size - dst.writeCur ≥ (F.minus float + 2 + decimalPlaces + 5) * digitSize dst.enc then
      layInSN F float decimalPlaces dst.enc >>= fun digits =>
        appendToString (localObject digits) 0
        ((F.minus float + 2 + decimalPlaces + 5) * digitSize dst.enc) dst m
    else pure (false, dst, m) := by
  obtain ⟨ptr, digits, hminus, -⟩ := layMinus_ok (F.lt float (F.ofInt 0)) dst.enc
  rw [appendFloatToStringInSN, layInSN, hminus]
  simp only [Except.ok_bind, bind_assoc]

end

/-- The text stays in the array and is appended whole exactly if there is no room for what is
counted, or the count is right and the text fits. -/
theorem appendFloatToString_whole_iff {φ : Type} (F : FloatOps φ)
    (finite : φ → Prop) (rank : φ → Nat) (hF : F.Scalable finite rank) (float : φ)
    (decimalPlaces : Usz) (inSN : Bool) (m : Mem) (dst : String) (hdst : Writable m dst)
    (hfloat : inSN = true → finite float ∧
      (F.lt float (F.ofInt 0) = true ∨ F.lt (F.ofInt 0) float = true)) :
    AppendsWhole (appendFloatToString F float decimalPlaces inSN dst m) dst
      (floatLaid F float decimalPlaces inSN) ↔
      dst.size - dst.writeCur < floatTotal F float decimalPlaces inSN * digitSize dst.enc ∨
        FloatFits F float decimalPlaces inSN dst.enc := by
  cases inSN with
  | true =>
    obtain ⟨⟨y, exp, expSign⟩, hscaled⟩ := hF.scaled_ok (hfloat rfl).1 (hfloat rfl).2
    rw [appendFloatToString, if_pos rfl, floatLaid, if_pos rfl, hscaled, floatTotal,
      if_pos rfl, ← @inSN_fits_iff _ F float
      decimalPlaces y exp expSign, appendFloatToStringInSN_eq]
    refine appendsWhole_iff hdst (lays_layInSN hscaled) (counted_le_of_fits ?_)
    rw [length_laidInSN]
    simp only [UInt64.toNat_add, UInt64.reduceToNat]
    split_ifs <;> omega
  | false =>
    rw [appendFloatToString, if_neg (by decide), floatLaid, if_neg (by decide), floatTotal,
      if_neg (by decide), ← regular_fits_iff, appendFloatToStringRegular_eq]
    have hsize := (digitSize_le dst.enc).2
    refine appendsWhole_iff hdst lays_layRegular fun hfits => ?_
    rcases @length_regularText_le _ F float decimalPlaces with hle | hle
    · exact counted_le_of_fits (Nat.le_trans toNat_regularTotal.1 hle) hfits
    · exact counted_le_of_fits (Nat.le_trans toNat_regularTotal.1 hle)
        (Nat.le_trans (Nat.mul_le_mul_left 20 hsize) (by decide))

theorem scalable_ratOps :
    ratOps.Scalable (fun x => x = 1 / 2 ∨ x = 5) (fun x => if x = 5 then 1 else 0) where
  rank_lt x _ := by split_ifs <;> decide
  mul_neg_one := by
    rintro x (rfl | rfl) hneg
    · exact absurd hneg (by decide +kernel)
    · exact absurd hneg (by decide +kernel)
  mul_ten := by
    rintro x (rfl | rfl) - hlt
    · have hmul : ratOps.mul (1 / 2) (ratOps.ofInt 10) = 5 := by decide +kernel
      rw [hmul]
      exact ⟨⟨.inr rfl, by decide +kernel⟩, by decide +kernel⟩
    · exact absurd hlt (by decide +kernel)
  div_ten := by
    rintro x (rfl | rfl) hgt
    · exact absurd hgt (by decide +kernel)
    · exact absurd hgt (by decide +kernel)

theorem appendFloatToString_whole_half :
    AppendsWhole (appendFloatToString ratOps (1 / 2) 3 true (numberDst .utf16be) blankMem)
    (numberDst .utf16be) (floatLaid ratOps (1 / 2) 3 true) :=
  (appendFloatToString_whole_iff ratOps _ _ scalable_ratOps (1 / 2) 3 true
    blankMem (numberDst .utf16be)
    (writable_numberDst _) fun _ =>
      ⟨.inl rfl, .inr (by decide +kernel)⟩).2 (.inr (by decide +kernel))

def floatDst : String := { base := 64, writeCur := 0, size := 200, enc := .ascii }

/-- Ten to the 18th has 19 digits, so that no place is left behind its dot; with a minus sign in
front the places are not clipped; and without places the exponent of the scientific layout loses its
last digit. -/
theorem appendFloatToString_not_whole :
    ¬ AppendsWhole (appendFloatToString ratOps (10 ^ 18) 1 false (numberDst .ascii) blankMem)
      (numberDst .ascii) (floatLaid ratOps (10 ^ 18) 1 false) ∧
    ¬ AppendsWhole (appendFloatToString ratOps (-10 ^ 18) 108 false floatDst blankMem) floatDst
      (floatLaid ratOps (-10 ^ 18) 108 false) ∧
    ¬ AppendsWhole (appendFloatToString ratOps 5 0 true (numberDst .ascii) blankMem)
      (numberDst .ascii) (floatLaid ratOps 5 0 true) := by
  have hregular : ∀ {float : ℚ} {decimalPlaces : Usz} {dst : String}, Writable blankMem dst →
      ¬ (dst.size - dst.writeCur < floatTotal ratOps float decimalPlaces false * digitSize dst.enc ∨
        FloatFits ratOps float decimalPlaces false dst.enc) →
      ¬ AppendsWhole (appendFloatToString ratOps float decimalPlaces false dst blankMem) dst
        (floatLaid ratOps float decimalPlaces false) := fun hdst hnot h =>
    hnot ((appendFloatToString_whole_iff ratOps _ _ scalable_ratOps _ _ false
      blankMem _ hdst nofun).1 h)
  refine ⟨hregular (writable_numberDst _) (by decide +kernel), hregular ?_ (by decide +kernel),
    fun h => ?_⟩
  · exact ⟨by decide, by decide, fun _ _ => rfl⟩
  · have hcond :=
      (appendFloatToString_whole_iff ratOps _ _ scalable_ratOps 5 0 true blankMem (numberDst .ascii)
      (writable_numberDst _) fun _ => ⟨.inr rfl, .inr (by decide +kernel)⟩).1 h
    exact absurd hcond (by decide +kernel)

end TinyBase
