import TinyBase.Simd

/-!
# Searching a byte with vector instructions (`_ByteInBufferIdxAVX2`, `_ByteInBufferIdxSSE2`)

The two functions are one search, over blocks of 32 or 16 bytes. It starts at the aligned block that
holds the first byte of the buffer, with the bytes before the buffer masked off, goes on block by
block while a whole block remains, and ends with a scalar loop over the rest.

The loop invariant `BlockInv` speaks of the index `e` behind the block in the register: nothing was
found before that block, and the mask marks the hits in it.
-/

namespace TinyBase

/-- The state of the block loop: `Init`, `Mask` and `RemainingSize`. -/
structure BlockState where
  init : Ptr
  mask : UInt32
  remaining : Usz

/-- What the block loop leaves to the scalar loop: `FoundIdx`, `PartialIdx`, and the new `Base` and
`WriteCur` of `Haystack`. -/
structure BlockResult where
  foundIdx : Usz
  partialIdx : Usz
  base : Ptr
  writeCur : Usz

/-- One round of the block loop. -/
def blockStep (w : Usz) (needle : UInt8) (rd : Reader) (st : BlockState) :
    Res (Ctl BlockState BlockState) :=
  if st.remaining ≥ w ∧ st.mask = 0 then do
    let chunk ← load rd (st.init + w) w
    pure (.next ⟨st.init + w, movemaskEpi8 (cmpeqEpi8 chunk (set1Epi8 w needle)), st.remaining - w⟩)
  else pure (.done st)

/-- The part of the search that goes by blocks of `w` bytes. -/
def searchBlocks (w : Usz) (needle : UInt8) (haystack : View) : Res BlockResult :=
  if haystack.writeCur > w then do
    let init := (0 - w) &&& haystack.base
    let chunk ← load haystack.rd init w
    let offset := (w - 1) &&& haystack.base
    let mask := movemaskEpi8 (cmpeqEpi8 chunk (set1Epi8 w needle)) &&& ((~~~0) <<< offset.toUInt32)
    let st ← whileLoop (blockStep w needle haystack.rd) ⟨init, mask,
        haystack.writeCur - (w - offset)⟩
    if st.mask ≠ 0 then
      pure ⟨st.init - haystack.base + (getFirstBitSet st.mask).toUInt64, 0,
        haystack.base, haystack.writeCur⟩
    else pure ⟨invalidIdx, st.init + w - haystack.base, st.init + w, st.remaining⟩
  else pure ⟨invalidIdx, 0, haystack.base, haystack.writeCur⟩

/-- The scalar loop over what is left. -/
def searchRest (needle : UInt8) (rd : Reader) (res : BlockResult) : Res Usz :=
  if res.foundIdx = invalidIdx then do
    let found ← scan res.writeCur fun idx => do
      let b ← rd (res.base + idx)
      pure (b == needle)
    match found with
    | some idx => pure (idx + res.partialIdx)
    | none => pure res.foundIdx
  else pure res.foundIdx

/-- The search by blocks of `w` bytes. -/
def byteInBufferIdxBlocks (w : Usz) (needle : UInt8) (haystack : View) : Res Usz := do
  let res ← searchBlocks w needle haystack
  searchRest needle haystack.rd res

/-- `_ByteInBufferIdxAVX2`: blocks of `XMM256_SIZE` bytes. -/
def byteInBufferIdxAVX2 (needle : UInt8) (haystack : View) : Res Usz :=
  byteInBufferIdxBlocks 0x20 needle haystack

/-- `_ByteInBufferIdxSSE2`: blocks of `XMM128_SIZE` bytes. -/
def byteInBufferIdxSSE2 (needle : UInt8) (haystack : View) : Res Usz :=
  byteInBufferIdxBlocks 0x10 needle haystack

/-- The aligned blocks of `w` bytes that hold a byte of the buffer can be read, and hold `g`. -/
def ReadsBlocks (w : Usz) (v : View) (g : Ptr → UInt8) : Prop :=
  ∀ (i : Usz) (a : Ptr), i.toNat < v.writeCur.toNat →
    a.toNat / w.toNat = (v.base + i).toNat / w.toNat → v.rd a = .ok (g a)

section
variable {w : Usz} {needle : UInt8} {v : View} {g : Ptr → UInt8}

theorem ReadsBlocks.reads (h : ReadsBlocks w v g) :
    Reads v.rd v.base v.writeCur.toNat (fun i => g (v.base + UInt64.ofNat i)) := fun i hi => by
  show _ = Except.ok (g (v.base + UInt64.ofNat i.toNat))
  rw [UInt64.ofNat_toNat]; exact h i _ hi rfl

theorem ReadsBlocks.block (h : ReadsBlocks w v g) (hw : w = 16 ∨ w = 32) {q : Ptr}
    (hq : q.toNat % w.toNat = 0) {i j : Usz} (hi : i.toNat < v.writeCur.toNat)
    (hj : j.toNat < w.toNat) (hij : q + j = v.base + i) :
    Reads v.rd q w.toNat (fun k => g (q + UInt64.ofNat k)) := fun k hk => by
  show _ = Except.ok (g (q + UInt64.ofNat k.toNat))
  rw [UInt64.ofNat_toNat]
  refine h i _ hi ?_
  rw [← hij, block_add hw hq hk, block_add hw hq hj]

/-- The index `i` of the buffer holds the needle. -/
def HitAt (needle : UInt8) (v : View) (g : Ptr → UInt8) (i : Nat) : Prop :=
  g (v.base + UInt64.ofNat i) = needle

/-- The state of the block loop when the block in the register ends before index `e`. -/
structure BlockInv (w : Usz) (needle : UInt8) (v : View) (g : Ptr → UInt8)
    (st : BlockState) (e : Usz) : Prop where
  init_eq : st.init + w = v.base + e
  aligned : (st.init + w).toNat % w.toNat = 0
  size : e.toNat + st.remaining.toNat = v.writeCur.toNat
  none : NoneBelow (HitAt needle v g) (e.toNat - w.toNat)
  /-- Bit `j` stands for the index `e + j - w`. -/
  mask : ∀ j < 32, st.mask.toNat.testBit j ↔
    j < w.toNat ∧ w.toNat ≤ e.toNat + j ∧ HitAt needle v g (e.toNat + j - w.toNat)

namespace BlockInv

theorem first (hw : w = 16 ∨ w = 32) (h : ReadsBlocks w v g) (hn : w.toNat < v.writeCur.toNat) :
    ∃ chunk, load v.rd ((0 - w) &&& v.base) w = .ok chunk ∧ ∃ e, BlockInv w needle v g
      ⟨(0 - w) &&& v.base,
        movemaskEpi8 (cmpeqEpi8 chunk (set1Epi8 w needle)) &&&
        ((~~~0) <<< ((w - 1) &&& v.base).toUInt32), v.writeCur - (w - ((w - 1) &&& v.base))⟩ e := by
  obtain ⟨hinit, hoff, halign⟩ := align_down hw v.base
  set off := (w - 1) &&& v.base with hoffdef
  have hw32 : w.toNat ≤ 32 := by rcases hw with rfl | rfl <;> decide
  have hn64 := v.writeCur.toNat_lt
  have hoff32 : off.toUInt32.toNat = off.toNat := by
    rw [UInt64.toNat_toUInt32]; exact Nat.mod_eq_of_lt (by omega)
  have he : (w - off).toNat = w.toNat - off.toNat :=
    UInt64.toNat_sub_of_toNat_le (Nat.le_of_lt hoff)
  have hread : Reads v.rd (v.base - off) w.toNat (fun k => g (v.base - off + UInt64.ofNat k)) :=
    h.block hw halign (i := 0) (j := off) (by simp; omega) hoff (by grind)
  rw [hinit, load_eq hread]
  refine ⟨_, rfl, w - off, ⟨by dsimp only; grind, aligned_add hw halign, ?_, ?_, ?_⟩⟩
  · dsimp only
    rw [UInt64.toNat_sub_of_toNat_le (by omega : (w - off).toNat ≤ _), he]
    omega
  · rw [he, show w.toNat - off.toNat - w.toNat = 0 by omega]
    exact NoneBelow.zero
  · intro j hj
    rw [UInt32.toNat_and, Nat.testBit_and, testBit_movemask_cmpeq hw32,
      testBit_shiftLeft_not_zero (by omega) hj, hoff32, he]
    simp only [Bool.and_eq_true, decide_eq_true_eq]
    -- bit `j` is the byte at `base - off + j`, which is index `j - off`
    have hidx : off.toNat ≤ j → v.base - off + UInt64.ofNat j =
        v.base + UInt64.ofNat (w.toNat - off.toNat + j - w.toNat) := by
      intro hle
      have : UInt64.ofNat j = off + UInt64.ofNat (w.toNat - off.toNat + j - w.toNat) := by
        apply UInt64.toNat_inj.1
        rw [UInt64.toNat_add, UInt64.toNat_ofNat', UInt64.toNat_ofNat']
        omega
      rw [this]; grind
    rw [HitAt]
    constructor
    · rintro ⟨⟨h1, h2⟩, h3⟩
      exact ⟨h1, by omega, by rw [← hidx h3]; exact h2⟩
    · rintro ⟨h1, h2, h3⟩
      have hle : off.toNat ≤ j := by omega
      exact ⟨⟨h1, by rw [hidx hle]; exact h3⟩, hle⟩

variable {st : BlockState} {e : Usz}

theorem noneBelow_of_mask (h : BlockInv w needle v g st e)
    (hw : w = 16 ∨ w = 32) (hmask : st.mask = 0) : NoneBelow (HitAt needle v g) e.toNat := by
  have hw32 : w.toNat ≤ 32 := by rcases hw with rfl | rfl <;> decide
  refine h.none.append fun i hi hie hhit => ?_
  have hbit := (h.mask (i + w.toNat - e.toNat) (by omega)).2
    ⟨by omega, by omega, by rwa [show e.toNat + (i + w.toNat - e.toNat) - w.toNat = i by omega]⟩
  rw [hmask] at hbit
  simp at hbit

theorem next (h : BlockInv w needle v g st e) (hw : w = 16 ∨ w = 32) (hg : ReadsBlocks w v g)
    (hrem : w ≤ st.remaining) (hmask : st.mask = 0) :
    ∃ chunk, load v.rd (st.init + w) w = .ok chunk ∧
      BlockInv w needle v g
        ⟨st.init + w, movemaskEpi8 (cmpeqEpi8 chunk (set1Epi8 w needle)),
          st.remaining - w⟩ (e + w) := by
  have hw32 : w.toNat ≤ 32 := by rcases hw with rfl | rfl <;> decide
  have hw0 : 0 < w.toNat := by rcases hw with rfl | rfl <;> decide
  have hrem' := UInt64.le_iff_toNat_le.1 hrem
  have hsize := h.size
  have hn64 := v.writeCur.toNat_lt
  have hew : (e + w).toNat = e.toNat + w.toNat := UInt64.toNat_add_of_lt (by omega)
  have hread := hg.block hw h.aligned (i := e) (j := 0) (by omega)
    (by simpa using hw0) (by rw [h.init_eq]; simp)
  refine ⟨_, load_eq hread, ⟨?_, aligned_add hw h.aligned, ?_, ?_, ?_⟩⟩
  · dsimp only; rw [h.init_eq, UInt64.add_assoc]
  · dsimp only; rw [UInt64.toNat_sub_of_le _ _ hrem, hew]; omega
  · rw [hew, show e.toNat + w.toNat - w.toNat = e.toNat by omega]
    exact h.noneBelow_of_mask hw hmask
  · intro j hj
    rw [testBit_movemask_cmpeq hw32, hew, decide_eq_true_eq, HitAt, h.init_eq, UInt64.add_assoc,
      show e.toNat + w.toNat + j - w.toNat = e.toNat + j by
        omega, UInt64.ofNat_add, UInt64.ofNat_toNat]
    exact ⟨fun ⟨h1, h2⟩ => ⟨h1, by omega, h2⟩, fun ⟨h1, _, h2⟩ => ⟨h1, h2⟩⟩

/-- The lowest bit of a mask that is not zero is the least hit. -/
theorem least (h : BlockInv w needle v g st e) (hw : w = 16 ∨ w = 32) (hmask : st.mask ≠ 0) :
    Least (HitAt needle v g) v.writeCur.toNat
      (st.init - v.base + (getFirstBitSet st.mask).toUInt64).toNat := by
  have hw32 : w.toNat ≤ 32 := by rcases hw with rfl | rfl <;> decide
  obtain ⟨hlt, hbit, hlow⟩ := getFirstBitSet_spec hmask
  obtain ⟨hjw, hwe, hhit⟩ := (h.mask _ hlt).1 hbit
  set j := (getFirstBitSet st.mask).toNat with hj
  have hsize := h.size
  have he64 := e.toNat_lt
  have hidx : (st.init - v.base + (getFirstBitSet st.mask).toUInt64).toNat =
      e.toNat + j - w.toNat := by
    have : st.init - v.base + (getFirstBitSet st.mask).toUInt64 =
        e + (getFirstBitSet st.mask).toUInt64 - w := by
      have := h.init_eq; grind
    have hsum : (e + (getFirstBitSet st.mask).toUInt64).toNat = e.toNat + j ∨
        (e + (getFirstBitSet st.mask).toUInt64).toNat = e.toNat + j - 2 ^ 64 := by
      rw [UInt64.toNat_add, UInt32.toNat_toUInt64, ← hj]; omega
    rw [this, UInt64.toNat_sub, UInt64.toNat_add, UInt32.toNat_toUInt64, ← hj]
    omega
  rw [hidx]
  refine ⟨by omega, hhit, h.none.append fun i hi hij hp => ?_⟩
  refine hlow (i + w.toNat - e.toNat) (by omega) ((h.mask _ (by omega)).2 ⟨by omega, by omega, ?_⟩)
  rwa [show e.toNat + (i + w.toNat - e.toNat) - w.toNat = i by omega]

end BlockInv

/-- The block loop ends with the least hit in its register, or at the index its blocks end at. -/
theorem wp_blockLoop (hw : w = 16 ∨ w = 32) (hg : ReadsBlocks w v g) {st : BlockState} {e : Usz}
    (h : BlockInv w needle v g st e) :
    (whileLoop (blockStep w needle v.rd) st).wp fun st => ∃ e, BlockInv w needle v g st e := by
  have hw0 : 0 < w.toNat := by rcases hw with rfl | rfl <;> decide
  refine wp_whileLoop (fun st => ∃ e, BlockInv w needle v g st e) (fun st => st.remaining.toNat)
    ?_ st ⟨e, h⟩ st.remaining.toNat_lt
  rintro st ⟨e, h⟩
  simp only [blockStep, Except.wp_ite, Except.wp_pure, Except.wp_bind, Ctl.post_done]
  refine ⟨fun hin => ?_, fun _ => ⟨e, h⟩⟩
  obtain ⟨hrem, hmask⟩ := hin
  obtain ⟨chunk, hload, hnext⟩ := h.next hw hg hrem hmask
  rw [hload]
  refine ⟨⟨_, hnext⟩, ?_⟩
  have hrem' := UInt64.le_iff_toNat_le.1 hrem
  show (st.remaining - w).toNat < st.remaining.toNat
  rw [UInt64.toNat_sub_of_le _ _ hrem]
  omega

/-- The blocks hold the least hit, or none of their bytes is one and the rest begins behind them. -/
theorem searchBlocks_spec (hw : w = 16 ∨ w = 32) (hg : ReadsBlocks w v g) :
    (searchBlocks w needle v).wp fun res =>
      Least (HitAt needle v g) v.writeCur.toNat res.foundIdx.toNat ∨ (res.foundIdx = invalidIdx ∧
        res.base = v.base + res.partialIdx ∧
        res.partialIdx.toNat + res.writeCur.toNat = v.writeCur.toNat ∧
        NoneBelow (HitAt needle v g) res.partialIdx.toNat) := by
  simp only [searchBlocks, Except.wp_ite, Except.wp_pure, Except.wp_bind]
  refine ⟨fun hn => ?_, fun _ => .inr ⟨trivial, by simp, by simp, NoneBelow.zero⟩⟩
  obtain ⟨chunk, hload, e, hfirst⟩ := BlockInv.first hw hg (UInt64.lt_iff_toNat_lt.1 hn)
  rw [hload]
  refine (wp_blockLoop hw hg hfirst).mono ?_
  rintro st ⟨e, h⟩
  refine ⟨fun hmask => .inl (h.least hw hmask), fun hmask => .inr ⟨trivial, ?_, ?_, ?_⟩⟩
  · rw [h.init_eq]; grind
  · rw [h.init_eq, show v.base + e - v.base = e by grind]; exact h.size
  · rw [h.init_eq, show v.base + e - v.base = e by grind]
    exact h.noneBelow_of_mask hw (not_not.1 hmask)

/-- The search by blocks returns the least index at which the needle stands. -/
theorem byteInBufferIdxBlocks_spec (hw : w = 16 ∨ w = 32) (hg : ReadsBlocks w v g) :
    (byteInBufferIdxBlocks w needle v).wp (IsIdx (HitAt needle v g) v.writeCur.toNat) := by
  have hn64 := v.writeCur.toNat_lt
  rw [byteInBufferIdxBlocks, Except.wp_bind]
  refine (searchBlocks_spec hw hg).mono ?_
  rintro ⟨foundIdx, partialIdx, base, writeCur⟩ hres
  simp only [searchRest, Except.wp_ite, Except.wp_pure, Except.wp_bind]
  refine ⟨fun hinv => ?_, fun hfound => .inl (hres.resolve_right fun h => hfound h.1)⟩
  obtain ⟨-, hbase, hsize, hnone⟩ := hres.resolve_left fun h => by
    have := h.lt
    rw [hinv, show invalidIdx.toNat = 2 ^ 64 - 1 from rfl] at this
    omega
  dsimp only at hbase hsize hnone
  subst hbase
  refine (wp_scan (fun i => HitAt needle v g (partialIdx.toNat + i)) fun i hi => ?_).mono
    fun r hr => ?_
  · have hpi : (partialIdx + i).toNat = partialIdx.toNat + i.toNat :=
      UInt64.toNat_add_of_lt (by omega)
    rw [UInt64.add_assoc, hg (partialIdx + i) _ (by omega) rfl]
    simp [HitAt, UInt64.ofNat_add]
  · cases r with
    | some idx =>
      have hlt := hr.lt
      have hidx : (idx + partialIdx).toNat = partialIdx.toNat + idx.toNat := by
        rw [UInt64.toNat_add, Nat.mod_eq_of_lt (by omega), Nat.add_comm]
      refine .inl ?_
      rw [← hsize, hidx]
      exact hr.add hnone
    | none => exact .inr ⟨hinv, hsize ▸ hnone.add hr⟩

end

/-- The vector searches for a byte return the index the portable one returns, wherever the buffer
lies and whatever is around it in its aligned blocks. -/
theorem byteInBufferIdx_agree (needle : UInt8) (haystack : View) (g : Ptr → UInt8) :
    (ReadsBlocks 32 haystack g → ∃ r, byteInBufferIdxSimple needle haystack = .ok r ∧
      byteInBufferIdxAVX2 needle haystack = .ok r ∧
      IsIdx (fun i => g (haystack.base + UInt64.ofNat i) = needle) haystack.writeCur.toNat r) ∧
    (ReadsBlocks 16 haystack g → ∃ r, byteInBufferIdxSimple needle haystack = .ok r ∧
      byteInBufferIdxSSE2 needle haystack = .ok r ∧
      IsIdx (fun i => g (haystack.base + UInt64.ofNat i) = needle) haystack.writeCur.toNat r) := by
  have agree : ∀ w : Usz, w = 16 ∨ w = 32 → ReadsBlocks w haystack g →
      ∃ r, byteInBufferIdxSimple needle haystack = .ok r ∧
      byteInBufferIdxBlocks w needle haystack = .ok r ∧
        IsIdx (fun i => g (haystack.base + UInt64.ofNat i) = needle) haystack.writeCur.toNat r := by
    intro w hw hg
    obtain ⟨r, hr, hidx⟩ := Except.wp_iff.1 (byteInBufferIdxSimple_spec hg.reads)
    obtain ⟨r', hr', hidx'⟩ := Except.wp_iff.1 (byteInBufferIdxBlocks_spec hw hg)
    obtain rfl := hidx.unique hidx'
    exact ⟨r, hr, hr', hidx⟩
  exact ⟨agree 32 (.inr rfl), agree 16 (.inl rfl)⟩

/-- Forty bytes from address `3`, with hits before, in and behind them. -/
def unalignedHaystack : View := ⟨fun a => .ok (if a.toNat % 37 = 2 then 7 else 0), 3, 40⟩

theorem byteInBufferIdx_agree_unaligned :
    (∃ r, byteInBufferIdxSimple 7 unalignedHaystack = .ok r ∧
      byteInBufferIdxAVX2 7 unalignedHaystack = .ok r ∧
      IsIdx (fun i => (if (3 + UInt64.ofNat i : Ptr).toNat % 37 = 2 then 7 else 0) = (7 : UInt8)) 40
      r) ∧
    (∃ r, byteInBufferIdxSimple 7 unalignedHaystack = .ok r ∧
      byteInBufferIdxSSE2 7 unalignedHaystack = .ok r ∧
      IsIdx (fun i => (if (3 + UInt64.ofNat i : Ptr).toNat % 37 = 2 then 7 else 0) = (7 : UInt8)) 40
      r) :=
  have h := byteInBufferIdx_agree 7 unalignedHaystack fun a => if a.toNat % 37 = 2 then 7 else 0
  ⟨h.1 fun _ _ _ _ => rfl, h.2 fun _ _ _ _ => rfl⟩

end TinyBase
