import TinyBase.Simd

/-!
# Searching a buffer with vector instructions (`_BufferInBufferIdxSSE3`, `_BufferInBufferIdxAVX2`)

Both functions go over the haystack block by block, comparing the first byte of the needle with all
bytes of the block at once, and try the start positions the comparison marks. The SSE3 function
takes a block only while 16 bytes and the needle's length remain, and ends with a scalar loop. The
AVX2 function takes every block that begins before the last start position; what it tries in its
last block depends on the bytes behind the haystack, and its scalar loop never runs.
-/

namespace TinyBase

/-- `HaystackPtr` and `HaystackRemaining`. -/
structure SearchState where
  ptr : Ptr
  remaining : Usz

/-- The last byte against `NeedleEnd`, then all bytes. -/
def endAndAllMatch (needle : View) (needleEnd : UInt8) (rd : Reader) (ptr : Ptr) : Res Bool := do
  let x ← rd (ptr + (needle.writeCur - 1))
  if x = needleEnd then equalBuffers ⟨rd, ptr, needle.writeCur⟩ needle else pure false

/-- The trial of `MatchIdx`, a position in the block at `HaystackPtr`. -/
def trialSSE3 (needle haystack : View) (needleEnd : UInt8) (st : SearchState) (matchIdx : UInt32) :
    Res (Option Usz) :=
  let tempRemaining := st.remaining - matchIdx.toUInt64
  if tempRemaining ≥ needle.writeCur then do
    if ← endAndAllMatch needle needleEnd haystack.rd (st.ptr + matchIdx.toUInt64) then
      pure (some (haystack.writeCur - tempRemaining))
    else pure none
  else pure none

/-- One round of the block loop, which returns a result or leaves its state to the scalar loop. -/
def blockSSE3 (needle haystack : View) (first needleEnd : UInt8) (st : SearchState) :
    Res (Ctl SearchState (Usz ⊕ SearchState)) :=
  if st.remaining ≥ 0x10 ∧ st.remaining ≥ needle.writeCur then do
    let haystackChunk ← load haystack.rd st.ptr 0x10
    let mask := movemaskEpi8 (cmpeqEpi8 (set1Epi8 0x10 first) haystackChunk)
    match ← maskLoop clearBit (trialSSE3 needle haystack needleEnd st) mask with
    | some r => pure (.done (.inl r))
    | none => pure (.next ⟨st.ptr + 0x10, st.remaining - 0x10⟩)
  else pure (.done (.inr st))

/-- `HaystackPtr[0] == Needle.Base[0]`, then the rest of the needle. -/
def allMatchSSE3 (needle : View) (needleEnd : UInt8) (rd : Reader) (ptr : Ptr) : Res Bool := do
  let x ← rd ptr
  let y ← needle.rd needle.base
  if x = y then endAndAllMatch needle needleEnd rd ptr else pure false

/-- One round of the scalar loop. -/
def tailSSE3 (needle haystack : View) (needleEnd : UInt8) (st : SearchState) :
    Res (Ctl SearchState Usz) :=
  if st.remaining ≥ needle.writeCur then do
    if ← allMatchSSE3 needle needleEnd haystack.rd st.ptr then pure (.done (st.ptr - haystack.base))
    else pure (.next ⟨st.ptr + 1, st.remaining - 1⟩)
  else pure (.done invalidIdx)

/-- `_BufferInBufferIdxSSE3`. -/
def bufferInBufferIdxSSE3 (needle haystack : View) : Res Usz :=
  if haystack.writeCur ≥ needle.writeCur then do
    let needleEnd ← needle.rd (needle.base + (needle.writeCur - 1))
    let first ← needle.rd needle.base
    match ← whileLoop (blockSSE3 needle haystack first needleEnd)
      ⟨haystack.base, haystack.writeCur⟩ with
    | .inl r => pure r
    | .inr st => whileLoop (tailSSE3 needle haystack needleEnd) st
  else pure invalidIdx

/-- `memcmp(p, q, Size) == 0`. -/
def memcmpEq (rd : Reader) (p : Ptr) (rd' : Reader) (q : Ptr) (size : Usz) : Res Bool := do
  let xs ← readBytes rd p size.toNat
  let ys ← readBytes rd' q size.toNat
  pure (xs == ys)

/-- The trial of `BitPos`, a position in the block at `Ptr`. -/
def trialAVX2 (needle haystack : View) (ptr : Ptr) (bitPos : UInt32) : Res (Option Usz) := do
  let start := ptr + bitPos.toUInt64
  if ← memcmpEq haystack.rd start needle.rd needle.base needle.writeCur then
    pure (some (start - haystack.base))
  else pure none

/-- One round of the block loop. `LastCmp` compares `LastByte` with itself; the block loaded into
`LastBlock` is not used. -/
def blockAVX2 (needle haystack : View) (first last : UInt8) (ptr : Ptr) :
    Res (Ctl Ptr (Usz ⊕ Ptr)) :=
  if ptr < haystack.base + haystack.writeCur - needle.writeCur then do
    let firstBlock ← load haystack.rd ptr 0x20
    let _lastBlock ← load haystack.rd (ptr + (needle.writeCur - 1)) 0x20
    let firstByte := set1Epi8 0x20 first
    let lastByte := set1Epi8 0x20 last
    let mask :=
      movemaskEpi8 (andSi256 (cmpeqEpi8 firstByte firstBlock) (cmpeqEpi8 lastByte lastByte))
    match ← maskLoop flipBit (trialAVX2 needle haystack ptr) mask with
    | some r => pure (.done (.inl r))
    | none => pure (.next (ptr + 0x20))
  else pure (.done (.inr ptr))

/-- First byte, last byte, then `memcmp`. -/
def allMatchAVX2 (needle haystack : View) (ptr : Ptr) : Res Bool := do
  let x ← haystack.rd ptr
  let y ← needle.rd needle.base
  if x = y then do
    let x ← haystack.rd (ptr + (needle.writeCur - 1))
    let y ← needle.rd (needle.base + (needle.writeCur - 1))
    if x = y then memcmpEq haystack.rd ptr needle.rd needle.base needle.writeCur else pure false
  else pure false

/-- One round of the scalar loop. -/
def tailAVX2 (needle haystack : View) (ptr : Ptr) : Res (Ctl Ptr Usz) :=
  if ptr < haystack.base + haystack.writeCur - needle.writeCur then do
    if ← allMatchAVX2 needle haystack ptr then pure (.done (ptr - haystack.base))
    else pure (.next (ptr + 1))
  else pure (.done invalidIdx)

/-- `_BufferInBufferIdxAVX2`. -/
def bufferInBufferIdxAVX2 (needle haystack : View) : Res Usz :=
  if haystack.writeCur ≥ needle.writeCur then do
    let first ← needle.rd needle.base
    let last ← needle.rd (needle.base + (needle.writeCur - 1))
    match ← whileLoop (blockAVX2 needle haystack first last) haystack.base with
    | .inl r => pure r
    | .inr ptr => whileLoop (tailAVX2 needle haystack) ptr
  else pure invalidIdx

/-! ### Specifications -/

/-- The needle, `m` bytes `g`, stands at index `i` of the `n` bytes `f`. -/
def StartsAt (f g : Nat → UInt8) (n m i : Nat) : Prop := i + m ≤ n ∧ Occurs f g m i

section
variable {needle haystack : View} {f g : Nat → UInt8} {n m : Nat}

theorem isIdx_of_startsAt {i : Usz} (h : StartsAt f g n m i.toNat)
    (hnone : NoneBelow (StartsAt f g n m) i.toNat) : IsIdx (Occurs f g m) (n + 1 - m) i := by
  have hle := h.1
  exact .inl ⟨by omega, h.2, hnone.congr fun j hj hocc => ⟨by omega, hocc⟩⟩

theorem isIdx_of_noneBelow {i : Nat} (hi : n < i + m) (hnone : NoneBelow (StartsAt f g n m) i) :
    IsIdx (Occurs f g m) (n + 1 - m) invalidIdx := by
  refine .inr ⟨rfl, (hnone.mono (by omega : n + 1 - m ≤ i)).congr fun j hj hocc => ⟨by omega, hocc⟩⟩

theorem endAndAllMatch_spec (hm : 0 < needle.writeCur.toNat)
    (hneedle : Reads needle.rd needle.base needle.writeCur.toNat g) {rd : Reader} {ptr : Ptr}
    (hptr : Reads rd ptr needle.writeCur.toNat f) :
    (endAndAllMatch needle (g (needle.writeCur.toNat - 1)) rd ptr).wp fun r =>
      r = true ↔ SameBytes f g needle.writeCur.toNat := by
  have hlast : (needle.writeCur - 1).toNat = needle.writeCur.toNat - 1 :=
    UInt64.toNat_sub_of_toNat_le hm
  rw [endAndAllMatch, hptr _ (by omega), hlast]
  simp only [Except.ok_bind, Except.wp_ite, Except.wp_pure]
  refine ⟨fun hend => ?_,
    fun hend => ⟨fun h => absurd h (by decide), fun h => absurd (h _ (by omega)) hend⟩⟩
  exact equalBuffers_spec (a := ⟨rd, ptr, needle.writeCur⟩) rfl hptr hneedle

theorem allMatchSSE3_spec (hm : 0 < needle.writeCur.toNat)
    (hneedle : Reads needle.rd needle.base needle.writeCur.toNat g) {rd : Reader} {ptr : Ptr}
    (hptr : Reads rd ptr needle.writeCur.toNat f) :
    (allMatchSSE3 needle (g (needle.writeCur.toNat - 1)) rd ptr).wp fun r =>
      r = true ↔ SameBytes f g needle.writeCur.toNat := by
  rw [allMatchSSE3, hptr.zero hm, hneedle.zero hm]
  simp only [Except.ok_bind, Except.wp_ite, Except.wp_pure]
  exact ⟨fun _ => endAndAllMatch_spec hm hneedle hptr,
    fun hfirst => ⟨fun h => absurd h (by decide), fun h => absurd (h _ hm) hfirst⟩⟩

/-- The state of the search when the start positions before `k` have been tried. -/
structure SearchInv (p : Nat → Prop) (v : View) (st : SearchState) (k : Usz) : Prop where
  ptr_eq : st.ptr = v.base + k
  size : k.toNat + st.remaining.toNat = v.writeCur.toNat
  none : NoneBelow p k.toNat

namespace SearchInv
variable {p : Nat → Prop} {st : SearchState} {k : Usz}

theorem init : SearchInv p haystack ⟨haystack.base, haystack.writeCur⟩ 0 :=
  ⟨by simp, by simp, NoneBelow.zero⟩

/-- The next `j` start positions have been tried. -/
theorem advance (h : SearchInv p haystack st k) {j : Usz} (hj : j ≤ st.remaining)
    (hnone : ∀ i < j.toNat, ¬ p (k.toNat + i)) :
    SearchInv p haystack ⟨st.ptr + j, st.remaining - j⟩ (k + j) := by
  have hj' := UInt64.le_iff_toNat_le.1 hj
  have hn := haystack.writeCur.toNat_lt
  have hsize := h.size
  have hkj : (k + j).toNat = k.toNat + j.toNat := UInt64.toNat_add_of_lt (by omega)
  refine ⟨by rw [h.ptr_eq, UInt64.add_assoc], ?_, ?_⟩
  · rw [hkj, UInt64.toNat_sub_of_le _ _ hj]; omega
  · rw [hkj]; exact h.none.add hnone

theorem value_eq (h : SearchInv p haystack st k) (j : Usz) :
    haystack.writeCur - (st.remaining - j) = k + j := by
  have : haystack.writeCur = k + st.remaining := by
    apply UInt64.toNat_inj.1
    rw [UInt64.toNat_add, ← h.size]
    have := h.size
    have := haystack.writeCur.toNat_lt
    rw [Nat.mod_eq_of_lt (by omega)]
  grind

theorem reads (h : SearchInv p haystack st k)
    (hhay : Reads haystack.rd haystack.base haystack.writeCur.toNat f) {j : Usz} {l : Nat}
    (hl : j.toNat + l ≤ st.remaining.toNat) :
    Reads haystack.rd (st.ptr + j) l (fun i => f (k.toNat + j.toNat + i)) := by
  have hn := haystack.writeCur.toNat_lt
  have hsize := h.size
  have hkj : (k + j).toNat = k.toNat + j.toNat := UInt64.toNat_add_of_lt (by omega)
  rw [h.ptr_eq, UInt64.add_assoc, ← hkj]
  exact hhay.shift (k + j) (by omega) (by omega)

end SearchInv

variable {st : SearchState} {k : Usz}

theorem trialSSE3_spec (hm : 0 < needle.writeCur.toNat)
    (hneedle : Reads needle.rd needle.base needle.writeCur.toNat g)
    (hhay : Reads haystack.rd haystack.base haystack.writeCur.toNat f)
    (h : SearchInv (StartsAt f g haystack.writeCur.toNat needle.writeCur.toNat) haystack st k)
    {bit : UInt32} (hbit : bit.toNat ≤ st.remaining.toNat) :
    (trialSSE3 needle haystack (g (needle.writeCur.toNat - 1)) st bit).wp fun
      | some r => StartsAt f g haystack.writeCur.toNat needle.writeCur.toNat (k.toNat + bit.toNat) ∧
          r = k + UInt64.ofNat bit.toNat
      | none =>
        ¬ StartsAt f g haystack.writeCur.toNat needle.writeCur.toNat (k.toNat + bit.toNat) := by
  have hsize := h.size
  have hsub : (st.remaining - bit.toUInt64).toNat = st.remaining.toNat - bit.toNat :=
    UInt64.toNat_sub_of_toNat_le (by simpa using hbit)
  simp only [trialSSE3, Except.wp_ite, Except.wp_pure, Except.wp_bind, ge_iff_le,
    UInt64.le_iff_toNat_le, hsub]
  refine ⟨fun hle => ?_, fun hlt hstart => hlt (by have := hstart.1; omega)⟩
  have hread := h.reads hhay (j := bit.toUInt64) (l := needle.writeCur.toNat) (by simp; omega)
  refine (endAndAllMatch_spec hm hneedle hread).mono fun r hr =>
    ⟨fun hrt => ⟨⟨by omega, ?_⟩, ?_⟩, fun hrf hstart => ?_⟩
  · simpa [Occurs] using hr.1 hrt
  · rw [h.value_eq, UInt64.ofNat_uInt32ToNat]
  · exact hrf (hr.2 (by simpa [Occurs] using hstart.2))

/-- The block loop returns the index to find, or has tried all start positions of its blocks. -/
theorem wp_blockSSE3 (hm : 0 < needle.writeCur.toNat)
    (hneedle : Reads needle.rd needle.base needle.writeCur.toNat g)
    (hhay : Reads haystack.rd haystack.base haystack.writeCur.toNat f)
    (h : SearchInv (StartsAt f g haystack.writeCur.toNat needle.writeCur.toNat) haystack st k) :
    (whileLoop (blockSSE3 needle haystack (g 0) (g (needle.writeCur.toNat - 1))) st).wp fun
      | .inl r =>
        IsIdx (Occurs f g needle.writeCur.toNat)
          (haystack.writeCur.toNat + 1 - needle.writeCur.toNat) r
      | .inr st =>
        ∃ k, SearchInv (StartsAt f g haystack.writeCur.toNat needle.writeCur.toNat)
          haystack st k := by
  set p := StartsAt f g haystack.writeCur.toNat needle.writeCur.toNat with hp
  refine wp_whileLoop (fun st => ∃ k, SearchInv p haystack st k) (fun st => st.remaining.toNat)
    ?_ st ⟨k, h⟩ st.remaining.toNat_lt
  rintro st ⟨k, h⟩
  simp only [blockSSE3, Except.wp_ite, Except.wp_pure, Except.wp_bind, Ctl.post_done]
  refine ⟨fun hin => ?_, fun _ => ⟨k, h⟩⟩
  obtain ⟨h16, hle⟩ := hin
  have h16' : 16 ≤ st.remaining.toNat := UInt64.le_iff_toNat_le.1 h16
  have hread : Reads haystack.rd st.ptr (0x10 : Usz).toNat (fun i => f (k.toNat + i)) := by
    simpa using h.reads hhay (j := 0) (l := 16) (by simpa using h16')
  rw [load_eq hread, Except.wp_ok, cmpeqEpi8_comm]
  have hfirst : ∀ j < (0x10 : Usz).toNat, p (k.toNat + j) → f (k.toNat + j) = g 0 :=
    fun j _ hstart => hstart.2 0 hm
  have htrial : ∀ bit : UInt32, bit.toNat < (0x10 : Usz).toNat →
      (trialSSE3 needle haystack (g (needle.writeCur.toNat - 1)) st bit).wp fun
        | some r => p (k.toNat + bit.toNat) ∧ r = k + UInt64.ofNat bit.toNat
        | none => ¬ p (k.toNat + bit.toNat) :=
    fun bit hbit => trialSSE3_spec hm hneedle hhay h (Nat.le_of_lt (Nat.lt_of_lt_of_le hbit h16'))
  refine (wp_maskLoop_cmpeq clearsBit_clearBit (by decide) (fun j => p (k.toNat + j))
    (fun j => k + UInt64.ofNat j) hfirst htrial).mono fun r hr => ?_
  cases r with
  | some r =>
    obtain ⟨j, hj, rfl⟩ := hr
    have hle := hj.sat.1
    have hsize := haystack.writeCur.toNat_lt
    have hidx : (k + UInt64.ofNat j).toNat = k.toNat + j := UInt64.toNat_add_ofNat (by omega)
    refine isIdx_of_startsAt (by rw [hidx]; exact hj.sat) ?_
    rw [hidx]
    exact h.none.add hj.none
  | none =>
    have hnext := h.advance h16 hr
    refine ⟨⟨_, hnext⟩, ?_⟩
    show (st.remaining - 0x10).toNat < st.remaining.toNat
    rw [UInt64.toNat_sub_of_le _ _ h16]
    simp; omega

/-- The scalar loop tries the start positions that are left. -/
theorem wp_tailSSE3 (hm : 0 < needle.writeCur.toNat)
    (hneedle : Reads needle.rd needle.base needle.writeCur.toNat g)
    (hhay : Reads haystack.rd haystack.base haystack.writeCur.toNat f)
    (h : SearchInv (StartsAt f g haystack.writeCur.toNat needle.writeCur.toNat) haystack st k) :
    (whileLoop (tailSSE3 needle haystack (g (needle.writeCur.toNat - 1))) st).wp
      (IsIdx (Occurs f g needle.writeCur.toNat)
        (haystack.writeCur.toNat + 1 - needle.writeCur.toNat)) := by
  set p := StartsAt f g haystack.writeCur.toNat needle.writeCur.toNat with hp
  refine wp_whileLoop (fun st => ∃ k, SearchInv p haystack st k) (fun st => st.remaining.toNat)
    ?_ st ⟨k, h⟩ st.remaining.toNat_lt
  rintro st ⟨k, h⟩
  have hsize := h.size
  simp only [tailSSE3, Except.wp_ite, Except.wp_pure, Except.wp_bind, Ctl.post_done, Ctl.post_next]
  refine ⟨fun hle => ?_, fun hlt => isIdx_of_noneBelow (i := k.toNat) ?_ h.none⟩
  · have hle' := UInt64.le_iff_toNat_le.1 hle
    have hread : Reads haystack.rd st.ptr needle.writeCur.toNat (fun i => f (k.toNat + i)) := by
      simpa using h.reads hhay (j := 0) (by simpa using hle')
    refine (allMatchSSE3_spec hm hneedle hread).mono fun r hr => ⟨fun hrt => ?_, fun hrf => ?_⟩
    · rw [show st.ptr - haystack.base = k by rw [h.ptr_eq]; grind]
      exact isIdx_of_startsAt ⟨by omega, hr.1 hrt⟩ h.none
    · have h1 : (1 : Usz) ≤ st.remaining := UInt64.le_iff_toNat_le.2 (by simp; omega)
      refine ⟨⟨k + 1, h.advance h1 fun i hi hstart => hrf (hr.2 ?_)⟩, ?_⟩
      · have hi0 : i = 0 := by simpa using hi
        subst hi0
        exact hstart.2
      · rw [UInt64.toNat_sub_of_le _ _ h1]
        simp; omega
  · rw [ge_iff_le, UInt64.le_iff_toNat_le] at hlt
    omega

/-- `_BufferInBufferIdxSSE3` returns the least start position. -/
theorem bufferInBufferIdxSSE3_spec (hm : 0 < needle.writeCur.toNat)
    (hneedle : Reads needle.rd needle.base needle.writeCur.toNat g)
    (hhay : Reads haystack.rd haystack.base haystack.writeCur.toNat f) :
    (bufferInBufferIdxSSE3 needle haystack).wp
      (IsIdx (Occurs f g needle.writeCur.toNat)
        (haystack.writeCur.toNat + 1 - needle.writeCur.toNat)) := by
  have hlast : (needle.writeCur - 1).toNat = needle.writeCur.toNat - 1 :=
    UInt64.toNat_sub_of_toNat_le hm
  rw [bufferInBufferIdxSSE3, hneedle _ (by omega), hneedle.zero hm, hlast]
  simp only [Except.ok_bind, Except.wp_ite, Except.wp_pure, Except.wp_bind]
  refine ⟨fun _ => (wp_blockSSE3 hm hneedle hhay SearchInv.init).mono fun r hr => ?_, fun hlt => ?_⟩
  · cases r with
    | inl r => exact hr
    | inr st =>
      obtain ⟨k, h⟩ := hr
      exact wp_tailSSE3 hm hneedle hhay h
  · rw [ge_iff_le, UInt64.le_iff_toNat_le] at hlt
    exact isIdx_of_noneBelow (i := 0) (by omega) NoneBelow.zero

end

/-- The same buffer, fenced: reading a byte outside of it is a fault. -/
def View.fenced (v : View) : View :=
  { v with rd := fun a => if InRange v.base v.writeCur.toNat a then v.rd a else .error (.read a) }

theorem View.fenced_reads {v : View} {f : Nat → UInt8} (h : Reads v.rd v.base v.writeCur.toNat f) :
    Reads v.fenced.rd v.fenced.base v.fenced.writeCur.toNat f := fun i hi => by
  have hin : InRange v.base v.writeCur.toNat (v.base + i) := inRange_add.2 hi
  simp only [fenced, hin, if_true]
  exact h i hi

/-- The SSE3 search returns the index the portable one returns, also when all bytes around the
haystack are fenced off. -/
theorem bufferInBufferIdxSSE3_agree (needle haystack : View) (f g : Nat → UInt8)
    (hm : 0 < needle.writeCur.toNat) (hneedle : Reads needle.rd needle.base needle.writeCur.toNat g)
    (hhay : Reads haystack.rd haystack.base haystack.writeCur.toNat f) :
    ∃ r, bufferInBufferIdxSimple needle haystack = .ok r ∧
      bufferInBufferIdxSSE3 needle haystack = .ok r ∧
      bufferInBufferIdxSSE3 needle haystack.fenced = .ok r ∧
      IsIdx (Occurs f g needle.writeCur.toNat) (haystack.writeCur.toNat + 1 - needle.writeCur.toNat)
      r := by
  obtain ⟨r, hr, hidx⟩ := Except.wp_iff.1 (bufferInBufferIdxSimple_spec hm hneedle hhay)
  obtain ⟨r', hr', hidx'⟩ := Except.wp_iff.1 (bufferInBufferIdxSSE3_spec hm hneedle hhay)
  obtain ⟨r'', hr'', hidx''⟩ :=
    Except.wp_iff.1 (bufferInBufferIdxSSE3_spec hm hneedle (View.fenced_reads hhay))
  obtain rfl := hidx.unique hidx'
  obtain rfl := hidx.unique hidx''
  exact ⟨r, hr, hr', hr'', hidx⟩

/-- Two bytes whose only occurrence in forty straddles the first two blocks. -/
theorem bufferInBufferIdxSSE3_agree_straddling :
    ∃ r, bufferInBufferIdxSimple ⟨fun a => .ok (if a = 1 then 2 else 1), 0, 2⟩
          ⟨fun a => .ok (if a = 16 then 2 else if a = 15 then 1 else 0), 0, 40⟩ = .ok r ∧
      bufferInBufferIdxSSE3 ⟨fun a => .ok (if a = 1 then 2 else 1), 0, 2⟩
        ⟨fun a => .ok (if a = 16 then 2 else if a = 15 then 1 else 0), 0, 40⟩ = .ok r ∧
      bufferInBufferIdxSSE3 ⟨fun a => .ok (if a = 1 then 2 else 1), 0, 2⟩
        (View.fenced ⟨fun a => .ok (if a = 16 then 2 else if a = 15 then 1 else 0), 0, 40⟩) =
        .ok r ∧
      IsIdx (Occurs (fun i => if UInt64.ofNat i = 16 then 2
        else if UInt64.ofNat i = 15 then 1 else 0)
        (fun i => if UInt64.ofNat i = 1 then 2 else 1) 2) 39 r :=
  bufferInBufferIdxSSE3_agree ⟨fun a => .ok (if a = 1 then 2 else 1), 0, 2⟩
    ⟨fun a => .ok (if a = 16 then 2 else if a = 15 then 1 else 0), 0, 40⟩ _ _ (by decide)
    (fun i _ => by simp) (fun i _ => by simp)

/-! ### The AVX2 search -/

theorem IsIdx.eq_iff {p : Nat → Prop} {a b : Nat} {r r' : Usz} (h : IsIdx p a r)
    (h' : IsIdx p b r') (hab : a ≤ b) (hb : b < 2 ^ 64) :
    r = r' ↔ (∃ i < a, p i) ∨ NoneBelow p b := by
  rcases h with h | ⟨rfl, h⟩
  · have h'' : r = r' :=
      IsIdx.unique (n := b) (.inl ⟨Nat.lt_of_lt_of_le h.lt hab, h.sat, h.none⟩) h'
    exact ⟨fun _ => .inl ⟨_, h.lt, h.sat⟩, fun _ => h''⟩
  · rcases h' with h' | ⟨rfl, h'⟩
    · refine ⟨?_, fun hor => ?_⟩
      · rintro rfl
        have := h'.lt
        rw [show invalidIdx.toNat = 2 ^ 64 - 1 from rfl] at this
        omega
      · rcases hor with ⟨i, hi, hp⟩ | hnone
        · exact absurd hp (h i hi)
        · exact absurd hnone h'.not_noneBelow
    · exact ⟨fun _ => .inr h', fun _ => rfl⟩

theorem memcmpEq_spec {rd rd' : Reader} {p q : Ptr} {size : Usz} {f g : Nat → UInt8}
    (hp : Reads rd p size.toNat f) (hq : Reads rd' q size.toNat g) :
    (memcmpEq rd p rd' q size).wp fun r => r = true ↔ SameBytes f g size.toNat := by
  have hlt := Nat.le_of_lt size.toNat_lt
  rw [memcmpEq, readBytes_eq hp hlt, readBytes_eq hq hlt]
  simp [SameBytes]

/-- Comparing a register with itself marks all its bytes. -/
theorem andSi256_cmpeqEpi8_self (x : List UInt8) (n : Usz) (b : UInt8) (hx : x.length ≤ n.toNat) :
    andSi256 x (cmpeqEpi8 (set1Epi8 n b) (set1Epi8 n b)) = x := by
  refine List.ext_getElem? fun j => ?_
  rw [andSi256, cmpeqEpi8, set1Epi8, List.getElem?_zipWith, List.getElem?_zipWith]
  by_cases hj : j < x.length
  · have h255 (c : UInt8) : c &&& 255 = c := by
      rw [← UInt8.toNat_inj, UInt8.toNat_and]
      exact (Nat.and_two_pow_sub_one_eq_mod c.toNat 8).trans (Nat.mod_eq_of_lt c.toNat_lt)
    simp [hj, Nat.lt_of_lt_of_le hj hx, h255]
  · simp [hj]

/-- The start positions the blocks of the AVX2 search cover: the distance from the first to the last
start position, rounded up to a multiple of 32. -/
def coveredAVX2 (n m : Nat) : Nat := (n - m + 31) / 32 * 32

section
variable {needle haystack : View} {f g : Nat → UInt8}

/-- `Ptr` after some blocks of the AVX2 search. -/
structure BlocksInv (p : Nat → Prop) (needle haystack : View) (ptr : Ptr) (k : Usz) : Prop where
  ptr_eq : ptr = haystack.base + k
  dvd : k.toNat % 32 = 0
  le : k.toNat ≤ coveredAVX2 haystack.writeCur.toNat needle.writeCur.toNat
  none : NoneBelow p k.toNat

theorem trialAVX2_spec {l : Nat} (hneedle : Reads needle.rd needle.base needle.writeCur.toNat g)
    (hhay : Reads haystack.rd haystack.base l f) {ptr : Ptr} {k : Usz}
    (hptr : ptr = haystack.base + k) {bit : UInt32}
    (hbit : k.toNat + bit.toNat + needle.writeCur.toNat ≤ l) (hl : l < 2 ^ 64) :
    (trialAVX2 needle haystack ptr bit).wp fun
      | some r =>
        Occurs f g needle.writeCur.toNat (k.toNat + bit.toNat) ∧ r = k + UInt64.ofNat bit.toNat
      | none => ¬ Occurs f g needle.writeCur.toNat (k.toNat + bit.toNat) := by
  have hkj : (k + bit.toUInt64).toNat = k.toNat + bit.toNat := by
    rw [UInt64.toNat_add, UInt32.toNat_toUInt64]; exact Nat.mod_eq_of_lt (by omega)
  have hread : Reads haystack.rd (haystack.base + (k + bit.toUInt64)) needle.writeCur.toNat _ :=
    hhay.shift (k + bit.toUInt64) (by omega) (by omega)
  rw [trialAVX2, hptr, UInt64.add_assoc, Except.wp_bind]
  refine (memcmpEq_spec hread hneedle).mono fun r hr => ?_
  rw [hkj] at hr
  rw [Except.wp_ite]
  refine ⟨fun hrt => ⟨hr.1 hrt, ?_⟩, fun hrf hocc => hrf (hr.2 hocc)⟩
  rw [UInt64.ofNat_uInt32ToNat]; grind

/-- The loops compare `Ptr` with the last start position. -/
theorem BlocksInv.lt_iff {p : Nat → Prop} {ptr : Ptr} {k : Usz}
    (h : BlocksInv p needle haystack ptr k) (hm : 0 < needle.writeCur.toNat)
    (hle : needle.writeCur ≤ haystack.writeCur)
    (hend : haystack.base.toNat + haystack.writeCur.toNat + 30 < 2 ^ 64) :
    ptr < haystack.base + haystack.writeCur - needle.writeCur ↔
      k.toNat < haystack.writeCur.toNat - needle.writeCur.toNat := by
  have hle' := UInt64.le_iff_toNat_le.1 hle
  have hk := h.le
  rw [coveredAVX2] at hk
  have h1 : (haystack.base + k).toNat = haystack.base.toNat + k.toNat :=
    UInt64.toNat_add_of_lt (by omega)
  have h2 : (haystack.base + haystack.writeCur).toNat = haystack.base.toNat +
      haystack.writeCur.toNat :=
    UInt64.toNat_add_of_lt (by omega)
  rw [UInt64.lt_iff_toNat_lt, h.ptr_eq, h1,
    UInt64.toNat_sub_of_toNat_le (by omega), h2]
  omega

/-- The block loop returns the least occurrence among the start positions it covers, those behind
the end of the haystack included, or leaves `Ptr` behind them. -/
theorem wp_blockAVX2 (hm : 0 < needle.writeCur.toNat) (hle : needle.writeCur ≤ haystack.writeCur)
    (hneedle : Reads needle.rd needle.base needle.writeCur.toNat g)
    (hhay : Reads haystack.rd haystack.base (haystack.writeCur.toNat + 30) f)
    (hend : haystack.base.toNat + haystack.writeCur.toNat + 30 < 2 ^ 64) (last : UInt8) :
    (whileLoop (blockAVX2 needle haystack (g 0) last) haystack.base).wp fun
      | .inl r => Least (Occurs f g needle.writeCur.toNat)
          (coveredAVX2 haystack.writeCur.toNat needle.writeCur.toNat) r.toNat
      | .inr ptr => ∃ k, BlocksInv (Occurs f g needle.writeCur.toNat) needle haystack ptr k ∧
          ¬ ptr < haystack.base + haystack.writeCur - needle.writeCur ∧
          k.toNat = coveredAVX2 haystack.writeCur.toNat needle.writeCur.toNat := by
  have hle' := UInt64.le_iff_toNat_le.1 hle
  set p := Occurs f g needle.writeCur.toNat with hp
  refine wp_whileLoop (fun ptr => ∃ k, BlocksInv p needle haystack ptr k)
    (fun ptr => haystack.writeCur.toNat + 30 - (ptr - haystack.base).toNat) ?_ haystack.base
    ⟨0, by simp, by simp, by simp, NoneBelow.zero⟩ (Nat.lt_of_le_of_lt (Nat.sub_le _ _) (by omega))
  rintro ptr ⟨k, h⟩
  have hlt := h.lt_iff hm hle hend
  simp only [blockAVX2, Except.wp_ite, Except.wp_pure, Except.wp_bind, Ctl.post_done]
  refine ⟨fun hptr => ?_, fun hptr => ⟨k, h, hptr, ?_⟩⟩
  swap
  · rw [hlt] at hptr
    have hdvd := h.dvd
    have hle := h.le
    rw [coveredAVX2] at hle ⊢
    omega
  have hk := hlt.1 hptr
  obtain ⟨hptr_eq, hdvd, -, hnone⟩ := h
  have hblock : Reads haystack.rd ptr (0x20 : Usz).toNat (fun i => f (k.toNat + i)) := by
    rw [hptr_eq]
    exact hhay.shift k (by simp; omega) (by simp; omega)
  have hlastBlock : ∃ x, load haystack.rd (ptr + (needle.writeCur - 1)) 0x20 = .ok x := by
    have hlast : (needle.writeCur - 1).toNat = needle.writeCur.toNat - 1 :=
      UInt64.toNat_sub_of_toNat_le hm
    have hk' : (k + (needle.writeCur - 1)).toNat = k.toNat + (needle.writeCur.toNat - 1) := by
      rw [UInt64.toNat_add, hlast]; exact Nat.mod_eq_of_lt (by omega)
    rw [hptr_eq, UInt64.add_assoc]
    exact ⟨_, load_eq (hhay.shift _ (by rw [hk']; simp; omega) (by rw [hk']; simp; omega))⟩
  obtain ⟨lastBlock, hlastBlock⟩ := hlastBlock
  rw [load_eq hblock, hlastBlock]
  simp only [Except.wp_ok]
  rw [cmpeqEpi8_comm _ (List.map _ _),
    andSi256_cmpeqEpi8_self _ _ _ (by simp [cmpeqEpi8, set1Epi8])]
  have hround : k.toNat + 32 ≤ coveredAVX2 haystack.writeCur.toNat needle.writeCur.toNat := by
    rw [coveredAVX2]; omega
  have hfirst : ∀ j < (0x20 : Usz).toNat, p (k.toNat + j) → f (k.toNat + j) = g 0 :=
    fun j _ hocc => hocc 0 hm
  have htrial : ∀ bit : UInt32, bit.toNat < (0x20 : Usz).toNat →
      (trialAVX2 needle haystack ptr bit).wp fun
      | some r => p (k.toNat + bit.toNat) ∧ r = k + UInt64.ofNat bit.toNat
      | none => ¬ p (k.toNat + bit.toNat) := fun bit hbit => by
    have hbit' : bit.toNat < 32 := hbit
    exact trialAVX2_spec hneedle hhay hptr_eq (by omega) (by omega)
  refine (wp_maskLoop_cmpeq clearsBit_flipBit (by decide) (fun j => p (k.toNat + j))
    (fun j => k + UInt64.ofNat j) hfirst htrial).mono fun r hr => ?_
  cases r with
  | some r =>
    obtain ⟨j, hj, rfl⟩ := hr
    have hj32 : j < 32 := hj.lt
    have hidx : (k + UInt64.ofNat j).toNat = k.toNat + j := UInt64.toNat_add_ofNat (by omega)
    show Least p _ (k + UInt64.ofNat j).toNat
    rw [hidx]
    exact ⟨by omega, hj.sat, hnone.add hj.none⟩
  | none =>
    have hk32 : (k + 0x20).toNat = k.toNat + 32 := UInt64.toNat_add_of_lt (by simp; omega)
    refine ⟨⟨k + 0x20, by rw [hptr_eq, UInt64.add_assoc], by omega, by omega, ?_⟩, ?_⟩
    · rw [hk32]
      exact hnone.add hr
    · rw [hptr_eq, show haystack.base + k + 0x20 - haystack.base = k + 0x20 by grind,
        show haystack.base + k - haystack.base = k by grind, hk32]
      omega

/-- `_BufferInBufferIdxAVX2` returns the least occurrence among the start positions it covers. -/
theorem bufferInBufferIdxAVX2_spec (hm : 0 < needle.writeCur.toNat)
    (hle : needle.writeCur ≤ haystack.writeCur)
    (hneedle : Reads needle.rd needle.base needle.writeCur.toNat g)
    (hhay : Reads haystack.rd haystack.base (haystack.writeCur.toNat + 30) f)
    (hend : haystack.base.toNat + haystack.writeCur.toNat + 30 < 2 ^ 64) :
    (bufferInBufferIdxAVX2 needle haystack).wp (IsIdx (Occurs f g needle.writeCur.toNat)
      (coveredAVX2 haystack.writeCur.toNat needle.writeCur.toNat)) := by
  have hlast : (needle.writeCur - 1).toNat = needle.writeCur.toNat - 1 :=
    UInt64.toNat_sub_of_toNat_le hm
  rw [bufferInBufferIdxAVX2, if_pos hle, hneedle.zero hm, hneedle _ (by omega)]
  simp only [Except.ok_bind, Except.wp_bind]
  refine (wp_blockAVX2 hm hle hneedle hhay hend _).mono fun r hr => ?_
  cases r with
  | inl r => exact .inl hr
  | inr ptr =>
    -- the scalar loop has the bound of the block loop
    obtain ⟨k, h, hptr, hk⟩ := hr
    refine wp_whileLoop (· = ptr) (fun _ => 0) ?_ ptr rfl (by decide)
    rintro _ rfl
    rw [tailAVX2, if_neg hptr]
    exact .inr ⟨rfl, hk ▸ h.none⟩

end

/-- The inputs on which the AVX2 search finds what it should. When the distance `n - m` from the
first to the last start position is a multiple of 32, the blocks leave out the last start position;
else the last block goes on to start positions behind it. Either does no harm if there is an
occurrence before. -/
def CoversOccurrences (f g : Nat → UInt8) (n m : Nat) : Prop :=
  n < m ∨ (∃ i < n - m, Occurs f g m i) ∨
    if (n - m) % 32 = 0 then ¬ Occurs f g m (n - m)
    else Occurs f g m (n - m) ∨ ∀ i, n - m < i → i < coveredAVX2 n m → ¬ Occurs f g m i

theorem isIdx_eq_iff_coversOccurrences {f g : Nat → UInt8} {n m : Nat} {r r' : Usz}
    (hnm : m ≤ n) (hm : 0 < m) (hn : n + 30 < 2 ^ 64) (hr : IsIdx (Occurs f g m) (n + 1 - m) r)
    (hr' : IsIdx (Occurs f g m) (coveredAVX2 n m) r') : r = r' ↔ CoversOccurrences f g n m := by
  rw [CoversOccurrences, show n + 1 - m = n - m + 1 by omega] at *
  by_cases hmod : (n - m) % 32 = 0
  · have hcov : coveredAVX2 n m = n - m := by rw [coveredAVX2]; omega
    rw [hcov] at hr'
    rw [eq_comm, hr'.eq_iff hr (by omega) (by omega), if_pos hmod]
    constructor
    · rintro (h | h)
      · exact .inr (.inl h)
      · exact .inr (.inr (h _ (by omega)))
    · rintro (h | h | h)
      · omega
      · exact .inl h
      · by_cases hex : ∃ i < n - m, Occurs f g m i
        · exact .inl hex
        · exact .inr (NoneBelow.succ (fun i hi hocc => hex ⟨i, hi, hocc⟩) h)
  · have hcov : n - m + 1 ≤ coveredAVX2 n m ∧ coveredAVX2 n m < 2 ^ 64 := by rw [coveredAVX2]; omega
    rw [hr.eq_iff hr' hcov.1 hcov.2, if_neg hmod]
    constructor
    · rintro (⟨i, hi, hocc⟩ | h)
      · rcases Nat.lt_or_ge i (n - m) with hlt | hge
        · exact .inr (.inl ⟨i, hlt, hocc⟩)
        · obtain rfl : i = n - m := by omega
          exact .inr (.inr (.inl hocc))
      · exact .inr (.inr (.inr fun i _ hi => h i hi))
    · rintro (h | ⟨i, hi, hocc⟩ | hocc | h)
      · omega
      · exact .inl ⟨i, by omega, hocc⟩
      · exact .inl ⟨_, by omega, hocc⟩
      · by_cases hex : ∃ i < n - m + 1, Occurs f g m i
        · exact .inl hex
        · exact .inr (NoneBelow.append (a := n - m + 1) (fun i hi hocc => hex ⟨i, hi, hocc⟩)
            fun i hi => h i (by omega))

/-- The AVX2 search returns the index the portable one returns exactly if its blocks cover the
occurrences. `f` are the bytes of the haystack and the 30 readable bytes behind it. -/
theorem bufferInBufferIdxAVX2_agree_iff (needle haystack : View) (f g : Nat → UInt8)
    (hm : 0 < needle.writeCur.toNat) (hneedle : Reads needle.rd needle.base needle.writeCur.toNat g)
    (hhay : Reads haystack.rd haystack.base (haystack.writeCur.toNat + 30) f)
    (hend : haystack.base.toNat + haystack.writeCur.toNat + 30 < 2 ^ 64) :
    (∃ r, bufferInBufferIdxSimple needle haystack = .ok r ∧
      bufferInBufferIdxAVX2 needle haystack = .ok r ∧
      IsIdx (Occurs f g needle.writeCur.toNat) (haystack.writeCur.toNat + 1 - needle.writeCur.toNat)
      r) ↔
    CoversOccurrences f g haystack.writeCur.toNat needle.writeCur.toNat := by
  obtain ⟨r, hr, hidx⟩ :=
    Except.wp_iff.1 (bufferInBufferIdxSimple_spec hm hneedle (hhay.mono (Nat.le_add_right _ 30)))
  by_cases hle : needle.writeCur ≤ haystack.writeCur
  · obtain ⟨r', hr', hidx'⟩ := Except.wp_iff.1 (bufferInBufferIdxAVX2_spec hm hle hneedle hhay hend)
    rw [← isIdx_eq_iff_coversOccurrences (UInt64.le_iff_toNat_le.1 hle) hm (by omega) hidx hidx',
      hr, hr']
    constructor
    · rintro ⟨_, h, h', -⟩
      exact (Except.ok.inj h).trans (Except.ok.inj h').symm
    · rintro rfl
      exact ⟨r, rfl, rfl, hidx⟩
  · have hlt : haystack.writeCur.toNat < needle.writeCur.toNat :=
      UInt64.lt_iff_toNat_lt.1 (UInt64.not_le.1 hle)
    have hinv : r = invalidIdx := by
      have h : bufferInBufferIdxSimple needle haystack = .ok invalidIdx := if_neg hle
      rw [h] at hr
      exact (Except.ok.inj hr).symm
    exact ⟨fun _ => .inl hlt, fun _ => ⟨r, hr, by rw [hinv]; exact if_neg hle, hidx⟩⟩

/-- `n` bytes at `base`, counting up from `start`. -/
def countingUp (base : Ptr) (start : Nat) (n : Usz) : View :=
  ⟨fun a => .ok (UInt8.ofNat (start + (a - base).toNat)), base, n⟩

theorem countingUp_reads (base : Ptr) (start : Nat) (n : Usz) (k : Nat) :
    Reads (countingUp base start n).rd base k fun i => UInt8.ofNat (start + i) := fun i _ => by
  have hsub : base + i - base = i := by grind
  show Except.ok (UInt8.ofNat (start + (base + i - base).toNat)) = _
  rw [hsub]

/-- Forty bytes are found at index 70, in the third block of the haystack. -/
theorem bufferInBufferIdxAVX2_agree_iff_blocks :
    bufferInBufferIdxSimple (countingUp 0x2000 70 40) (countingUp 0x1000 0 130) = .ok 70 ∧
      bufferInBufferIdxAVX2 (countingUp 0x2000 70 40) (countingUp 0x1000 0 130) = .ok 70 := by
  have hocc : Occurs (fun i => UInt8.ofNat (0 + i)) (fun i => UInt8.ofNat (70 + i)) 40 70 := by
    decide
  obtain ⟨r, hsimple, havx2, hidx⟩ :=
    (bufferInBufferIdxAVX2_agree_iff (countingUp 0x2000 70 40) (countingUp 0x1000 0 130)
    (fun i => UInt8.ofNat (0 + i)) (fun i => UInt8.ofNat (70 + i)) (by decide)
    (countingUp_reads 0x2000 70 40 _) (countingUp_reads 0x1000 0 130 _)
    (by decide)).2 (.inr (.inl ⟨70, by decide, hocc⟩))
  have hnone : ∀ i < 70,
    ¬ Occurs (fun i => UInt8.ofNat (0 + i)) (fun i => UInt8.ofNat (70 + i)) 40 i := by decide
  have h70 : IsIdx (Occurs (fun i => UInt8.ofNat (0 + i)) (fun i => UInt8.ofNat (70 + i)) 40)
      (130 + 1 - 40) 70 :=
    .inl ⟨by decide, hocc, hnone⟩
  rw [hsimple, havx2, hidx.unique h70]
  exact ⟨rfl, rfl⟩

/-- One byte, as needle and as haystack. -/
def oneByte : View := ⟨fun _ => .ok 65, 0x1000, 1⟩

/-- The byte is at index `0`, and the AVX2 search does not find it. -/
theorem bufferInBufferIdxAVX2_misses_oneByte :
    ¬ ∃ r, bufferInBufferIdxSimple oneByte oneByte = .ok r ∧
      bufferInBufferIdxAVX2 oneByte oneByte = .ok r := by
  have hsimple : bufferInBufferIdxSimple oneByte oneByte = .ok 0 := by decide +kernel
  have havx2 : bufferInBufferIdxAVX2 oneByte oneByte = .ok invalidIdx := by decide +kernel
  rintro ⟨r, h, h'⟩
  have h0 : r = 0 := (Except.ok.inj (hsimple.symm.trans h)).symm
  have hinv : r = invalidIdx := (Except.ok.inj (havx2.symm.trans h')).symm
  exact absurd (h0.symm.trans hinv) (by decide)

-- `65` is not among the two bytes searched, but four bytes behind them
example : bufferInBufferIdxAVX2 oneByte ⟨fun a => .ok (if a = 0x2006 then 65 else 0), 0x2000, 2⟩ =
    .ok 6 := by
  decide +kernel

end TinyBase
