import TinyBase.Lib.Bits
import TinyBase.Search

/-!
# Vector instructions

A vector register is the list of its bytes, lowest address first. The instructions follow their
documented meaning; loading the 16 or 32 bytes of a register touches every one of them.
-/

namespace TinyBase

/-- `_mm_load_si128`, `_mm_lddqu_si128`, `_mm256_loadu_si256`: the `n` bytes from `p`. -/
def load (rd : Reader) (p : Ptr) (n : Usz) : Res (List UInt8) := readBytes rd p n.toNat

/-- `_mm_set1_epi8`, `_mm256_set1_epi8`. -/
def set1Epi8 (n : Usz) (b : UInt8) : List UInt8 := List.replicate n.toNat b

/-- `_mm_cmpeq_epi8`, `_mm256_cmpeq_epi8`. -/
def cmpeqEpi8 (x y : List UInt8) : List UInt8 :=
  List.zipWith (fun a b => if a = b then 0xFF else 0) x y

/-- `_mm256_and_si256`. -/
def andSi256 (x y : List UInt8) : List UInt8 := List.zipWith (· &&& ·) x y

/-- The top bit of each byte, that of the first byte lowest. -/
def signBits : List UInt8 → Nat
  | [] => 0
  | b :: bs => (b >>> 7).toNat + 2 * signBits bs

/-- `_mm_movemask_epi8`, `_mm256_movemask_epi8`. -/
def movemaskEpi8 (x : List UInt8) : UInt32 := UInt32.ofNat (signBits x)

theorem signBits_lt (x : List UInt8) : signBits x < 2 ^ x.length := by
  induction x with
  | nil => simp [signBits]
  | cons b bs ih =>
    have hb : (b >>> 7).toNat < 2 := by
      rw [UInt8.toNat_shiftRight, Nat.shiftRight_eq_div_pow]
      have := b.toNat_lt
      exact Nat.div_lt_of_lt_mul (by simpa using this)
    rw [signBits, List.length_cons, Nat.pow_succ]
    omega

theorem testBit_signBits (x : List UInt8) (j : Nat) :
    (signBits x).testBit j = decide (128 ≤ (x.getD j 0).toNat) := by
  induction x generalizing j with
  | nil => simp [signBits]
  | cons b bs ih =>
    have hb : (b >>> 7).toNat = if 128 ≤ b.toNat then 1 else 0 := by
      have hlt := b.toNat_lt
      rw [UInt8.toNat_shiftRight, Nat.shiftRight_eq_div_pow]
      show b.toNat / 128 = _
      split <;> omega
    cases j with
    | zero =>
      rw [signBits, Nat.testBit_zero, hb, List.getD_cons_zero]
      split <;> simp_all
    | succ j =>
      rw [signBits, Nat.testBit_succ, List.getD_cons_succ, ← ih]
      congr 1
      rw [hb]
      split <;> omega

theorem testBit_movemaskEpi8 {x : List UInt8} (hx : x.length ≤ 32) (j : Nat) :
    (movemaskEpi8 x).toNat.testBit j = decide (128 ≤ (x.getD j 0).toNat) := by
  have hlt : signBits x < UInt32.size :=
    Nat.lt_of_lt_of_le (signBits_lt x) (Nat.pow_le_pow_right (by decide) hx)
  rw [movemaskEpi8, UInt32.toNat_ofNat_of_lt' hlt, testBit_signBits]

/-- Comparing a register with one that holds `b` in every byte marks the bytes equal to `b`. -/
theorem getD_cmpeqEpi8_set1 {n : Usz} {f : Nat → UInt8} (b : UInt8) (j : Nat) :
    (cmpeqEpi8 ((List.range n.toNat).map f) (set1Epi8 n b)).getD j 0 =
      if j < n.toNat ∧ f j = b then 0xFF else 0 := by
  rw [cmpeqEpi8, set1Epi8, List.getD_eq_getElem?_getD, List.getElem?_zipWith]
  by_cases hj : j < n.toNat
  · by_cases hb : f j = b <;> simp [hj, hb]
  · simp [hj]

/-- The mask of the bytes of a block that equal `b`. -/
theorem testBit_movemask_cmpeq {n : Usz} (hn : n.toNat ≤ 32)
    (f : Nat → UInt8) (b : UInt8) (j : Nat) :
    (movemaskEpi8 (cmpeqEpi8 ((List.range n.toNat).map f) (set1Epi8 n b))).toNat.testBit j =
      decide (j < n.toNat ∧ f j = b) := by
  rw [testBit_movemaskEpi8 (by simpa [cmpeqEpi8, set1Epi8] using hn), getD_cmpeqEpi8_set1]
  split <;> simp_all

theorem cmpeqEpi8_comm (x y : List UInt8) : cmpeqEpi8 x y = cmpeqEpi8 y x :=
  List.zipWith_comm_of_comm fun a b => by simp only [eq_comm]

theorem load_eq {rd : Reader} {p : Ptr} {n : Usz} {f : Nat → UInt8} (h : Reads rd p n.toNat f) :
    load rd p n = .ok ((List.range n.toNat).map f) :=
  readBytes_eq h (Nat.le_of_lt n.toNat_lt)

/-- `~0u << Offset` keeps the bits from `Offset` on. -/
theorem testBit_shiftLeft_not_zero {k : UInt32} (hk : k.toNat < 32) {j : Nat} (hj : j < 32) :
    ((~~~(0 : UInt32)) <<< k).toNat.testBit j = decide (k.toNat ≤ j) := by
  rw [UInt32.toNat_shiftLeft, Nat.mod_eq_of_lt hk, Nat.testBit_mod_two_pow, Nat.testBit_shiftLeft,
    show (~~~(0 : UInt32)).toNat = 2 ^ 32 - 1 from rfl, Nat.testBit_two_pow_sub_one]
  by_cases h : k.toNat ≤ j
  · have : j - k.toNat < 32 := by omega
    simp [hj, h, this]
  · simp [h]

/-! ### Walking over the set bits of a mask -/

/-- `while (Mask != 0)`: the lowest set bit is tried, and cleared when the trial gives no result. -/
def maskLoop (clear : UInt32 → UInt32 → UInt32) (trial : UInt32 → Res (Option Usz))
    (mask : UInt32) : Res (Option Usz) :=
  whileLoop (fun mask =>
    if mask ≠ 0 then do
      let bitPos := getFirstBitSet mask
      match ← trial bitPos with
      | some r => pure (.done (some r))
      | none => pure (.next (clear mask bitPos))
    else pure (.done none)) mask

/-- `clear` clears the one bit it is given. -/
def ClearsBit (clear : UInt32 → UInt32 → UInt32) : Prop :=
  ∀ (mask bit : UInt32), bit.toNat < 32 → clear mask bit = flipBit mask bit

theorem clearsBit_flipBit : ClearsBit flipBit := fun _ _ _ => rfl

theorem clearsBit_clearBit : ClearsBit clearBit := fun mask _ h => clearBit_eq_flipBit mask h

/-- The walk ends with the value of the least set bit that passes its trial. -/
theorem wp_maskLoop {clear : UInt32 → UInt32 → UInt32} (hclear : ClearsBit clear)
    {trial : UInt32 → Res (Option Usz)} {mask : UInt32} (p : Nat → Prop) (value : Nat → Usz)
    (htrial : ∀ bit : UInt32, bit.toNat < 32 → mask.toNat.testBit bit.toNat → (trial bit).wp fun
      | some r => p bit.toNat ∧ r = value bit.toNat
      | none => ¬ p bit.toNat) :
    (maskLoop clear trial mask).wp fun
      | some r => ∃ i, Least (fun j => mask.toNat.testBit j ∧ p j) 32 i ∧ r = value i
      | none => NoneBelow (fun j => mask.toNat.testBit j ∧ p j) 32 := by
  -- the bits still set are set in `mask`, and the others of `mask` failed their trial
  refine wp_whileLoop (fun rest => ∀ j < 32, (rest.toNat.testBit j → mask.toNat.testBit j) ∧
    (mask.toNat.testBit j → p j → rest.toNat.testBit j)) UInt32.toNat ?_ mask
    (fun j _ => ⟨id, fun h _ => h⟩) (Nat.lt_of_lt_of_le mask.toNat_lt (by decide))
  intro rest hrest
  simp only [Except.wp_ite, Except.wp_pure, Except.wp_bind, Ctl.post_done]
  refine ⟨fun hne => ?_, fun h0 j hj hp => ?_⟩
  · obtain ⟨h32, hbit, hlow⟩ := getFirstBitSet_spec hne
    refine (htrial _ h32 ((hrest _ h32).1 hbit)).mono fun r hr => ?_
    cases r with
    | some r =>
      refine ⟨_, ⟨h32, ⟨(hrest _ h32).1 hbit, hr.1⟩, fun j hj hp => hlow j hj ?_⟩, hr.2⟩
      exact (hrest j (by omega)).2 hp.1 hp.2
    | none =>
      rw [hclear _ _ h32]
      refine ⟨fun j hj => ?_, flipBit_lt _ h32 hbit⟩
      rw [testBit_flipBit _ h32 hj, Bool.and_eq_true, decide_eq_true_eq]
      refine ⟨fun h => (hrest j hj).1 h.1, fun hm hp => ⟨(hrest j hj).2 hm hp, ?_⟩⟩
      rintro rfl
      exact hr hp
  · have := (hrest j hj).2 hp.1 hp.2
    rw [not_not.1 h0] at this
    simp at this

/-- The walk over the bytes of a block that equal `b`, when only these can satisfy `p`. -/
theorem wp_maskLoop_cmpeq {clear : UInt32 → UInt32 → UInt32} (hclear : ClearsBit clear)
    {trial : UInt32 → Res (Option Usz)} {n : Usz} (hn : n.toNat ≤ 32) {f : Nat → UInt8} {b : UInt8}
    (p : Nat → Prop) (value : Nat → Usz) (hp : ∀ j < n.toNat, p j → f j = b)
    (htrial : ∀ bit : UInt32, bit.toNat < n.toNat → (trial bit).wp fun
      | some r => p bit.toNat ∧ r = value bit.toNat
      | none => ¬ p bit.toNat) :
    (maskLoop clear trial (movemaskEpi8 (cmpeqEpi8 ((List.range n.toNat).map f) (set1Epi8 n b)))).wp
    fun
      | some r => ∃ j, Least p n.toNat j ∧ r = value j
      | none => NoneBelow p n.toNat := by
  have hbit := testBit_movemask_cmpeq hn f b
  generalize movemaskEpi8 (cmpeqEpi8 ((List.range n.toNat).map f) (set1Epi8 n b)) = mask at hbit ⊢
  have hset : ∀ j, mask.toNat.testBit j ↔ j < n.toNat ∧ f j = b := fun j => by
    rw [hbit, decide_eq_true_eq]
  refine (wp_maskLoop hclear p value fun bit _ h => htrial bit ((hset _).1 h).1).mono fun r hr => ?_
  cases r with
  | some r =>
    obtain ⟨j, hj, rfl⟩ := hr
    have hjn := ((hset j).1 hj.sat.1).1
    exact ⟨j, ⟨hjn, hj.sat.2,
      fun i hi hpi => hj.none i hi ⟨(hset i).2 ⟨by omega, hp i (by omega) hpi⟩, hpi⟩⟩, rfl⟩
  | none => exact fun i hi hpi => hr i (by omega) ⟨(hset i).2 ⟨hi, hp i hi hpi⟩, hpi⟩

/-! ### Aligned blocks -/

/-- Rounding an address down to a block of 16 or 32 bytes. -/
theorem align_down {w : Usz} (hw : w = 16 ∨ w = 32) (p : Ptr) :
    (0 - w) &&& p = p - ((w - 1) &&& p) ∧ ((w - 1) &&& p).toNat < w.toNat ∧
      (p - ((w - 1) &&& p)).toNat % w.toNat = 0 := by
  have hp := p.toNat_lt
  have hlow : ((w - 1) &&& p).toNat = p.toNat % w.toNat := by
    rcases hw with rfl | rfl <;> rw [UInt64.toNat_and, Nat.and_comm]
    · exact Nat.and_two_pow_sub_one_eq_mod p.toNat 4
    · exact Nat.and_two_pow_sub_one_eq_mod p.toNat 5
  have hhigh : ((0 - w) &&& p).toNat = p.toNat / w.toNat * w.toNat := by
    rcases hw with rfl | rfl <;> rw [UInt64.toNat_and, Nat.and_comm]
    · refine (Nat.and_mask p.toNat 60 4).trans ?_
      rw [Nat.mod_eq_of_lt (by omega)]; rfl
    · refine (Nat.and_mask p.toNat 59 5).trans ?_
      rw [Nat.mod_eq_of_lt (by omega)]; rfl
  have hsub : (p - ((w - 1) &&& p)).toNat = p.toNat - p.toNat % w.toNat := by
    rw [UInt64.toNat_sub_of_toNat_le (by rw [hlow]; exact Nat.mod_le _ _), hlow]
  have hpos : 0 < w.toNat := by rcases hw with rfl | rfl <;> decide
  have hdm := Nat.div_add_mod' p.toNat w.toNat
  refine ⟨UInt64.toNat_inj.1 (by rw [hhigh, hsub]; omega),
    by rw [hlow]; exact Nat.mod_lt _ hpos, ?_⟩
  rw [hsub, show p.toNat - p.toNat % w.toNat = p.toNat / w.toNat * w.toNat by omega]
  exact Nat.mul_mod_left _ _

/-- The bytes of an aligned block have one block number. -/
theorem block_add {w : Usz} (hw : w = 16 ∨ w = 32) {q : Ptr} (hq : q.toNat % w.toNat = 0) {j : Usz}
    (hj : j.toNat < w.toNat) : (q + j).toNat / w.toNat = q.toNat / w.toNat := by
  have hlt := q.toNat_lt
  rcases hw with rfl | rfl
  · simp only [UInt64.reduceToNat] at *; rw [UInt64.toNat_add, Nat.mod_eq_of_lt (by omega)]; omega
  · simp only [UInt64.reduceToNat] at *; rw [UInt64.toNat_add, Nat.mod_eq_of_lt (by omega)]; omega

theorem aligned_add {w : Usz} (hw : w = 16 ∨ w = 32) {q : Ptr} (hq : q.toNat % w.toNat = 0) :
    (q + w).toNat % w.toNat = 0 := by
  rcases hw with rfl | rfl
  · simp only [UInt64.reduceToNat] at *; rw [UInt64.toNat_add]
    simp only [UInt64.reduceToNat]; omega
  · simp only [UInt64.reduceToNat] at *; rw [UInt64.toNat_add]
    simp only [UInt64.reduceToNat]; omega

end TinyBase
