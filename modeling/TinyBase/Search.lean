import TinyBase.Lib.Least
import TinyBase.Memory

/-!
# Comparing and searching buffers (`tinybase-memory.c`, "Query")

The portable functions: `_ComparePtrSimple` and what is built on it, `_ByteInBufferIdxSimple` and
`_BufferInBufferIdxSimple`. `IsIdx p n r` is what a search returns: the least index below `n` that
satisfies `p`, or `INVALID_IDX`.
-/

namespace TinyBase

/-- `for (Idx = 0; Idx < n; Idx++) if (test(Idx)) return Idx;` -/
def scan (n : Usz) (test : Usz → Res Bool) : Res (Option Usz) :=
  whileLoop (fun idx =>
    if idx < n then do
      if ← test idx then pure (.done (some idx)) else pure (.next (idx + 1))
    else pure (.done none)) 0

/-- `_ComparePtrSimple`. -/
def comparePtrSimple (a b : View) (amountToCompare : Usz) : Res Ptr := do
  let diff ← scan amountToCompare fun idx => do
    let x ← a.rd (a.base + idx)
    let y ← b.rd (b.base + idx)
    pure (x != y)
  match diff with
  | some idx => pure (a.base + idx)
  | none => pure (a.base + amountToCompare)

/-- `_CompareIdx`. -/
def compareIdx (a b : View) (amountToCompare : Usz) : Res Usz := do
  let result ← comparePtrSimple a b amountToCompare
  pure (result - a.base)

def equalBuffers (a b : View) : Res Bool :=
  if a.writeCur = b.writeCur then
    if a.writeCur = 0 then pure true
    else do
      let x ← a.rd a.base
      let y ← b.rd b.base
      if x = y then do
        let x ← a.rd (a.base + (a.writeCur - 1))
        let y ← b.rd (b.base + (b.writeCur - 1))
        if x = y then do
          let idx ← compareIdx a b a.writeCur
          pure (a.writeCur == idx)
        else pure false
      else pure false
  else pure false

/-- `_ByteInBufferIdxSimple`. -/
def byteInBufferIdxSimple (needle : UInt8) (haystack : View) : Res Usz := do
  let found ← scan haystack.writeCur fun idx => do
    let b ← haystack.rd (haystack.base + idx)
    pure (needle == b)
  match found with
  | some idx => pure idx
  | none => pure invalidIdx

/-- The test of a start position that all the searches for a buffer end with: first byte, last byte,
then all of them. -/
def matchesAt (needle haystack : View) (ptr : Ptr) : Res Bool := do
  let x ← haystack.rd ptr
  let y ← needle.rd needle.base
  if x = y then do
    let x ← haystack.rd (ptr + (needle.writeCur - 1))
    let y ← needle.rd (needle.base + (needle.writeCur - 1))
    if x = y then equalBuffers ⟨haystack.rd, ptr, needle.writeCur⟩ needle
    else pure false
  else pure false

/-- `_BufferInBufferIdxSimple`. -/
def bufferInBufferIdxSimple (needle haystack : View) : Res Usz :=
  if haystack.writeCur ≥ needle.writeCur then do
    let found ← scan (haystack.writeCur - needle.writeCur + 1) fun idx =>
      matchesAt needle haystack (haystack.base + idx)
    match found with
    | some idx => pure idx
    | none => pure invalidIdx
  else pure invalidIdx

/-! ### Specifications -/

/-- The least index below `n` that satisfies `p`, or `INVALID_IDX` if there is none. -/
def IsIdx (p : Nat → Prop) (n : Nat) (r : Usz) : Prop :=
  Least p n r.toNat ∨ (r = invalidIdx ∧ NoneBelow p n)

theorem IsIdx.unique {p : Nat → Prop} {n : Nat} {r r' : Usz} (h : IsIdx p n r) (h' : IsIdx p n r') :
    r = r' := by
  rcases h with h | ⟨rfl, h⟩ <;> rcases h' with h' | ⟨rfl, h'⟩
  · exact UInt64.toNat_inj.1 (h.unique h')
  · exact absurd h' h.not_noneBelow
  · exact absurd h h'.not_noneBelow
  · rfl

theorem IsIdx.congr {p q : Nat → Prop} {n : Nat} {r : Usz} (h : IsIdx p n r)
    (hpq : ∀ k < n, p k ↔ q k) :
    IsIdx q n r :=
  h.imp (·.congr hpq) fun ⟨hr, hn⟩ => ⟨hr, hn.congr fun i hi => (hpq i hi).2⟩

/-- A scan stops at the least index that passes the test. The test has to be decided only at the
indices the scan reaches. -/
theorem wp_scan {n : Usz} {test : Usz → Res Bool} (p : Nat → Prop)
    (htest : ∀ i : Usz, i.toNat < n.toNat → (test i).wp fun b => b = true ↔ p i.toNat) :
    (scan n test).wp fun
      | some i => Least p n.toNat i.toNat
      | none => NoneBelow p n.toNat := by
  refine wp_whileLoop (fun idx => idx.toNat ≤ n.toNat ∧ NoneBelow p idx.toNat)
    (fun idx => n.toNat - idx.toNat) ?_ 0 ⟨Nat.zero_le _, NoneBelow.zero⟩ ?_
  · rintro idx ⟨hle, hnone⟩
    have hn := n.toNat_lt
    simp only [Except.wp_ite, Except.wp_pure, Except.wp_bind, Ctl.post_next, Ctl.post_done]
    refine ⟨fun hlt => ?_, fun hge => ?_⟩
    · have hlt' : idx.toNat < n.toNat := UInt64.lt_iff_toNat_lt.1 hlt
      have hsucc : (idx + 1).toNat = idx.toNat + 1 := UInt64.toNat_add_one (by omega)
      refine (htest idx hlt').mono fun b hb => ⟨fun hbt => ⟨hlt', hb.1 hbt, hnone⟩, fun hbf => ?_⟩
      rw [hsucc]
      exact ⟨⟨hlt', hnone.succ fun hp => hbf (hb.2 hp)⟩, by omega⟩
    · rw [UInt64.lt_iff_toNat_lt] at hge
      rwa [show n.toNat = idx.toNat by omega]
  · have := n.toNat_lt
    show n.toNat - (0 : Usz).toNat < _
    omega

/-- `n` bytes of two memories agree. -/
def SameBytes (f g : Nat → UInt8) (n : Nat) : Prop := ∀ i < n, f i = g i

instance (f g : Nat → UInt8) (n : Nat) : Decidable (SameBytes f g n) :=
  inferInstanceAs (Decidable (∀ i < n, _))

section
variable {a b : View} {f g : Nat → UInt8} {amount : Usz}

/-- `_ComparePtrSimple` points at the first difference, or behind the last byte compared. -/
theorem comparePtrSimple_spec (ha : Reads a.rd a.base amount.toNat f)
    (hb : Reads b.rd b.base amount.toNat g) :
    (comparePtrSimple a b amount).wp fun r => ∃ k : Usz, r = a.base + k ∧ k.toNat ≤ amount.toNat ∧
      SameBytes f g k.toNat ∧ (k.toNat < amount.toNat → f k.toNat ≠ g k.toNat) := by
  rw [comparePtrSimple, Except.wp_bind]
  refine (wp_scan (fun i => f i ≠ g i) fun i hi => ?_).mono fun r hr => ?_
  · rw [ha i hi, hb i hi]; simp
  · cases r with
    | some idx =>
      exact ⟨idx, rfl, Nat.le_of_lt hr.lt, fun i hi => not_not.1 (hr.none i hi), fun _ => hr.sat⟩
    | none =>
      exact ⟨amount, rfl, Nat.le_refl _, fun i hi => not_not.1 (hr i hi),
        fun h => absurd h (lt_irrefl _)⟩

theorem compareIdx_eq_iff (ha : Reads a.rd a.base amount.toNat f)
    (hb : Reads b.rd b.base amount.toNat g) :
    (compareIdx a b amount).wp fun r => amount = r ↔ SameBytes f g amount.toNat := by
  rw [compareIdx, Except.wp_bind]
  refine (comparePtrSimple_spec ha hb).mono ?_
  rintro _ ⟨k, rfl, hk, hsame, hdiff⟩
  rw [Except.wp_pure, show a.base + k - a.base = k by grind]
  constructor
  · rintro rfl; exact hsame
  · intro hall
    by_contra hne
    have hlt : k.toNat < amount.toNat :=
      Nat.lt_of_le_of_ne hk fun h => hne (UInt64.toNat_inj.1 h.symm)
    exact hdiff hlt (hall _ hlt)

/-- `EqualBuffers` on buffers of one length decides whether their bytes are the same. -/
theorem equalBuffers_spec (hlen : a.writeCur = b.writeCur)
    (ha : Reads a.rd a.base a.writeCur.toNat f) (hb : Reads b.rd b.base a.writeCur.toNat g) :
    (equalBuffers a b).wp fun r => r = true ↔ SameBytes f g a.writeCur.toNat := by
  rw [equalBuffers, if_pos hlen]
  by_cases h0 : a.writeCur = 0
  · rw [if_pos h0, h0]
    simp [SameBytes]
  have hpos : 0 < a.writeCur.toNat :=
    Nat.pos_of_ne_zero fun h => h0 (UInt64.toNat_inj.1 h)
  have hlast : (a.writeCur - 1).toNat = a.writeCur.toNat - 1 :=
    UInt64.toNat_sub_of_toNat_le hpos
  rw [if_neg h0, ha.zero hpos, hb.zero hpos, ← hlen, ha _ (by omega), hb _ (by omega), hlast]
  simp only [Except.ok_bind, Except.wp_ite, Except.wp_pure, Except.wp_bind]
  refine ⟨fun hfirst => ⟨fun hend => ?_, fun hend => ?_⟩, fun hfirst => ?_⟩
  · refine (compareIdx_eq_iff ha hb).mono fun r hr => ?_
    rw [beq_iff_eq]; exact hr
  · exact ⟨fun h => absurd h (by decide), fun h => absurd (h _ (by omega)) hend⟩
  · exact ⟨fun h => absurd h (by decide), fun h => absurd (h _ hpos) hfirst⟩

end

/-- `_ByteInBufferIdxSimple` returns the least index at which the needle stands. -/
theorem byteInBufferIdxSimple_spec {needle : UInt8} {haystack : View} {f : Nat → UInt8}
    (hr : Reads haystack.rd haystack.base haystack.writeCur.toNat f) :
    (byteInBufferIdxSimple needle haystack).wp (IsIdx (f · = needle) haystack.writeCur.toNat) := by
  rw [byteInBufferIdxSimple, Except.wp_bind]
  refine (wp_scan (f · = needle) fun i hi => ?_).mono fun r hr => ?_
  · rw [hr i hi, Except.ok_bind, Except.wp_pure, beq_iff_eq]
    exact eq_comm
  · cases r with
    | some idx => exact .inl hr
    | none => exact .inr ⟨rfl, hr⟩

/-- The needle, `m` bytes `g`, stands at index `i` of `f`. -/
def Occurs (f g : Nat → UInt8) (m i : Nat) : Prop := SameBytes (fun j => f (i + j)) g m

instance (f g : Nat → UInt8) (m i : Nat) : Decidable (Occurs f g m i) :=
  inferInstanceAs (Decidable (SameBytes _ _ _))

section
variable {needle haystack : View} {f g : Nat → UInt8}

theorem matchesAt_spec (hm : 0 < needle.writeCur.toNat)
    (hneedle : Reads needle.rd needle.base needle.writeCur.toNat g) {ptr : Ptr}
    (hptr : Reads haystack.rd ptr needle.writeCur.toNat f) :
    (matchesAt needle haystack ptr).wp fun r => r = true ↔ SameBytes f g needle.writeCur.toNat := by
  have hlast : (needle.writeCur - 1).toNat = needle.writeCur.toNat - 1 :=
    UInt64.toNat_sub_of_toNat_le hm
  rw [matchesAt, hptr.zero hm, hneedle.zero hm, hptr _ (by omega), hneedle _ (by omega), hlast]
  simp only [Except.ok_bind, Except.wp_ite, Except.wp_pure]
  refine ⟨fun hfirst => ⟨fun hend => ?_, fun hend => ?_⟩, fun hfirst => ?_⟩
  · exact equalBuffers_spec (a := ⟨haystack.rd, ptr, needle.writeCur⟩) rfl hptr hneedle
  · exact ⟨fun h => absurd h (by decide), fun h => absurd (h _ (by omega)) hend⟩
  · exact ⟨fun h => absurd h (by decide), fun h => absurd (h _ hm) hfirst⟩

/-- `_BufferInBufferIdxSimple` returns the least index at which the whole needle stands. -/
theorem bufferInBufferIdxSimple_spec (hm : 0 < needle.writeCur.toNat)
    (hneedle : Reads needle.rd needle.base needle.writeCur.toNat g)
    (hhay : Reads haystack.rd haystack.base haystack.writeCur.toNat f) :
    (bufferInBufferIdxSimple needle haystack).wp
      (IsIdx (Occurs f g needle.writeCur.toNat)
        (haystack.writeCur.toNat + 1 - needle.writeCur.toNat)) := by
  have hlt := haystack.writeCur.toNat_lt
  rw [bufferInBufferIdxSimple]
  by_cases hle : needle.writeCur ≤ haystack.writeCur
  · have hle' := UInt64.le_iff_toNat_le.1 hle
    have hbound : (haystack.writeCur - needle.writeCur + 1).toNat =
        haystack.writeCur.toNat + 1 - needle.writeCur.toNat := by
      rw [UInt64.toNat_add, UInt64.toNat_sub_of_le _ _ hle, Nat.mod_eq_of_lt (by simp; omega)]
      simp; omega
    rw [if_pos hle, Except.wp_bind, ← hbound]
    refine (wp_scan (Occurs f g needle.writeCur.toNat) fun i hi => ?_).mono fun r hr => ?_
    · exact matchesAt_spec hm hneedle (hhay.shift i (by omega) (by omega))
    · cases r with
      | some idx => exact .inl hr
      | none => exact .inr ⟨rfl, hr⟩
  · have hlt' : haystack.writeCur.toNat < needle.writeCur.toNat :=
      UInt64.lt_iff_toNat_lt.1 (UInt64.not_le.1 hle)
    rw [if_neg hle, Except.wp_pure]
    refine .inr ⟨rfl, ?_⟩
    rw [show haystack.writeCur.toNat + 1 - needle.writeCur.toNat = 0 by omega]
    exact NoneBelow.zero

end

end TinyBase
