import TinyBase.Lib.Hits
import TinyBase.Search
import TinyBase.StringSpec

/-!
# Searching buffers and strings (`tinybase-memory.c` and `tinybase-strings.c`, "Query")

`Flags` selects the direction of a search and what is made of the index it finds. The searches
behind the function pointers are the portable ones, which they point to until `InitBuffersArch` is
called.
-/

namespace TinyBase
open Unicode

/-- `RETURN_BOOL`. -/
def returnBool : UInt32 := 0x1

/-- `RETURN_IDX_FIND`. -/
def returnIdxFind : UInt32 := 0x2

/-- `RETURN_IDX_AFTER`. -/
def returnIdxAfter : UInt32 := 0x4

/-- `RETURN_PTR_FIND`. -/
def returnPtrFind : UInt32 := 0x10

/-- `RETURN_PTR_AFTER`. -/
def returnPtrAfter : UInt32 := 0x20

/-- `SEARCH_REVERSE`. -/
def searchReverse : UInt32 := 0x80

/-- `for (Idx = n; Idx > 0; Idx--) if (test(Idx)) return Idx; if (test(0)) return 0;` -/
def scanBack (n : Usz) (test : Usz → Res Bool) : Res (Option Usz) :=
  whileLoop (fun idx =>
    if idx > 0 then do
      if ← test idx then pure (.done (some idx)) else pure (.next (idx - 1))
    else do
      if ← test 0 then pure (.done (some 0)) else pure (.done none)) n

/-- `_ReverseByteInBufferIdxSimple`. -/
def reverseByteInBufferIdxSimple (needle : UInt8) (haystack : View) : Res Usz :=
  if haystack.writeCur > 0 then do
    let found ← scanBack (haystack.writeCur - 1) fun idx => do
      let b ← haystack.rd (haystack.base + idx)
      pure (b == needle)
    match found with
    | some idx => pure idx
    | none => pure invalidIdx
  else pure invalidIdx

/-- `_ReverseBufferInBufferIdxSimple`. -/
def reverseBufferInBufferIdxSimple (needle haystack : View) : Res Usz :=
  if haystack.writeCur ≥ needle.writeCur then do
    let found ← scanBack (haystack.writeCur - needle.writeCur) fun idx =>
      matchesAt needle haystack (haystack.base + idx)
    match found with
    | some idx => pure idx
    | none => pure invalidIdx
  else pure invalidIdx

/-- What the functions `..Bool`, `..IdxFind`, `..IdxAfter`, `..PtrAfter` and `..PtrFind` make of the
index of a needle of `len` bytes, and the choice between them. -/
def resultOf (flags : UInt32) (haystack : View) (len idx : Usz) : Usz :=
  if flags &&& returnBool ≠ 0 then (if idx ≠ invalidIdx then 1 else 0)
  else if flags &&& returnIdxFind ≠ 0 then idx
  else if flags &&& returnIdxAfter ≠ 0 then (if idx ≠ invalidIdx then idx + len else idx)
  else if flags &&& returnPtrAfter ≠ 0 then
    (if idx ≠ invalidIdx then haystack.base + idx + len else 0)
  else (if idx ≠ invalidIdx then haystack.base + idx else 0)

/-- `ByteInBuffer`, with the portable searches. -/
def byteInBuffer (needle : UInt8) (haystack : View) (flags : UInt32) : Res Usz := do
  let idx ← if flags &&& searchReverse ≠ 0 then reverseByteInBufferIdxSimple needle haystack
    else byteInBufferIdxSimple needle haystack
  pure (resultOf flags haystack 1 idx)

/-- `BufferInBuffer`, with the portable searches. -/
def bufferInBuffer (needle haystack : View) (flags : UInt32) : Res Usz := do
  let idx ← if flags &&& searchReverse ≠ 0 then reverseBufferInBufferIdxSimple needle haystack
    else bufferInBufferIdxSimple needle haystack
  pure (resultOf flags haystack needle.writeCur idx)

def charInString (needle : MbChar) (haystack : String) (flags : UInt32) (m : Mem) : Res Usz :=
  let needleSize := getMultibyteCharSize needle haystack.enc
  if needleSize = 1 then byteInBuffer needle.toUInt8 (haystack.toBuffer.view m) flags
  else bufferInBuffer ⟨localObject (leBytes 4 needle.toNat), 0, needleSize.toUInt64⟩
    (haystack.toBuffer.view m) flags

def stringInString (needle haystack : String) (flags : UInt32) (m : Mem) : Res Usz :=
  if needle.enc = haystack.enc then
    bufferInBuffer (needle.toBuffer.view m) (haystack.toBuffer.view m) flags
  else pure invalidIdx

def countCharInString (needle : MbChar) (haystack : String) (m : Mem) : Res Usz :=
  whileLoop (fun (haystack, result) => do
    let idx ← charInString needle haystack returnIdxAfter m
    if idx ≠ invalidIdx then
      pure (.next ({ haystack with toBuffer := advanceBuffer haystack.toBuffer idx }, result + 1))
    else pure (.done result)) (haystack, (0 : Usz))

/-! ### Specifications -/

/-- The greatest index below `n` that satisfies `p`, or `INVALID_IDX` if there is none. -/
def IsLastIdx (p : Nat → Prop) (n : Nat) (r : Usz) : Prop :=
  Greatest p n r.toNat ∨ (r = invalidIdx ∧ NoneBelow p n)

theorem IsLastIdx.congr {p q : Nat → Prop} {n : Nat} {r : Usz} (h : IsLastIdx p n r)
    (hpq : ∀ k < n, p k ↔ q k) :
    IsLastIdx q n r := by
  rcases h with h | ⟨hr, hn⟩
  · exact .inl ⟨h.lt, (hpq _ h.lt).1 h.sat, fun j hj hjn hq => h.none j hj hjn ((hpq j hjn).2 hq)⟩
  · exact .inr ⟨hr, hn.congr fun i hi => (hpq i hi).2⟩

/-- A backward scan stops at the greatest index that passes the test. -/
theorem wp_scanBack {n : Usz} {test : Usz → Res Bool} (p : Nat → Prop)
    (htest : ∀ i : Usz, i.toNat ≤ n.toNat → (test i).wp fun b => b = true ↔ p i.toNat) :
    (scanBack n test).wp fun
      | some i => Greatest p (n.toNat + 1) i.toNat
      | none => NoneBelow p (n.toNat + 1) := by
  refine wp_whileLoop (fun idx => idx.toNat ≤ n.toNat ∧
    ∀ j, idx.toNat < j → j < n.toNat + 1 → ¬ p j)
    (fun idx => idx.toNat) ?_ n ⟨Nat.le_refl _, fun j h1 h2 => by omega⟩ n.toNat_lt
  rintro idx ⟨hle, hnone⟩
  simp only [Except.wp_ite, Except.wp_pure, Except.wp_bind, Ctl.post_next, Ctl.post_done]
  refine ⟨fun hpos => ?_, fun hzero => ?_⟩
  · have hpos' : 0 < idx.toNat := UInt64.lt_iff_toNat_lt.1 hpos
    have hpred : (idx - 1).toNat = idx.toNat - 1 := UInt64.toNat_sub_of_toNat_le hpos'
    refine (htest idx hle).mono fun b hb => ⟨fun hbt => ⟨by omega, hb.1 hbt, hnone⟩, fun hbf => ?_⟩
    rw [hpred]
    refine ⟨⟨by omega, fun j hj hjn hp => ?_⟩, by omega⟩
    rcases Nat.eq_or_lt_of_le (show idx.toNat ≤ j by omega) with rfl | hlt
    · exact hbf (hb.2 hp)
    · exact hnone j hlt hjn hp
  · have h0 : idx.toNat = 0 := Nat.eq_zero_of_not_pos fun h => hzero (UInt64.lt_iff_toNat_lt.2 h)
    rw [h0] at hnone
    refine (htest 0 (Nat.zero_le _)).mono fun b hb =>
      ⟨fun hbt => ⟨Nat.succ_pos _, hb.1 hbt, hnone⟩, fun hbf j hj => ?_⟩
    rcases Nat.eq_zero_or_pos j with rfl | hj0
    · exact fun hp => hbf (hb.2 hp)
    · exact hnone j hj0 hj

section
variable {needle haystack : View} {f g : Nat → UInt8}

theorem reverseByteInBufferIdxSimple_spec {needle : UInt8}
    (hr : Reads haystack.rd haystack.base haystack.writeCur.toNat f) :
    (reverseByteInBufferIdxSimple needle haystack).wp
      (IsLastIdx (f · = needle) haystack.writeCur.toNat) := by
  rw [reverseByteInBufferIdxSimple, Except.wp_ite]
  refine ⟨fun hpos => ?_, fun hzero => .inr ⟨rfl, ?_⟩⟩
  · have hpos' : 0 < haystack.writeCur.toNat := UInt64.lt_iff_toNat_lt.1 hpos
    have hlast : (haystack.writeCur - 1).toNat = haystack.writeCur.toNat - 1 :=
      UInt64.toNat_sub_of_toNat_le hpos'
    have hbound : haystack.writeCur.toNat = (haystack.writeCur - 1).toNat + 1 := by omega
    rw [Except.wp_bind, hbound]
    refine (wp_scanBack (f · = needle) fun i hi => ?_).mono fun r hfound => ?_
    · rw [hr i (by omega), Except.ok_bind, Except.wp_pure, beq_iff_eq]
    · cases r with
      | some idx => exact .inl hfound
      | none => exact .inr ⟨rfl, hfound⟩
  · have h0 : haystack.writeCur.toNat = 0 :=
      Nat.eq_zero_of_not_pos fun h => hzero (UInt64.lt_iff_toNat_lt.2 h)
    rw [h0]
    exact NoneBelow.zero

theorem reverseBufferInBufferIdxSimple_spec (hm : 0 < needle.writeCur.toNat)
    (hneedle : Reads needle.rd needle.base needle.writeCur.toNat g)
    (hhay : Reads haystack.rd haystack.base haystack.writeCur.toNat f) :
    (reverseBufferInBufferIdxSimple needle haystack).wp
      (IsLastIdx (Occurs f g needle.writeCur.toNat)
        (haystack.writeCur.toNat + 1 - needle.writeCur.toNat)) := by
  have hlt := haystack.writeCur.toNat_lt
  rw [reverseBufferInBufferIdxSimple, Except.wp_ite]
  refine ⟨fun hle => ?_, fun hgt => .inr ⟨rfl, ?_⟩⟩
  · have hle' := UInt64.le_iff_toNat_le.1 hle
    have hbound : haystack.writeCur.toNat + 1 - needle.writeCur.toNat =
        (haystack.writeCur - needle.writeCur).toNat + 1 := by
      rw [UInt64.toNat_sub_of_le _ _ hle]; omega
    rw [Except.wp_bind, hbound]
    refine (wp_scanBack (Occurs f g needle.writeCur.toNat) fun i hi => ?_).mono fun r hfound => ?_
    · exact matchesAt_spec hm hneedle (hhay.shift i (by omega) (by omega))
    · cases r with
      | some idx => exact .inl hfound
      | none => exact .inr ⟨rfl, hfound⟩
  · have hgt' : haystack.writeCur.toNat < needle.writeCur.toNat :=
      UInt64.lt_iff_toNat_lt.1 (UInt64.not_le.1 hgt)
    have h0 : haystack.writeCur.toNat + 1 - needle.writeCur.toNat = 0 := by omega
    rw [h0]
    exact NoneBelow.zero

end

/-! ### Lists of bytes -/

theorem occurs_iff_prefix {bs cs : List UInt8} {i : Nat} (h : i + bs.length ≤ cs.length) :
    Occurs (cs.getD · 0) (bs.getD · 0) bs.length i ↔ bs <+: cs.drop i := by
  rw [List.prefix_iff_getElem?]
  have hget (j : Nat) (hj : j < bs.length) : cs.getD (i + j) 0 = bs.getD j 0 ↔
      (cs.drop i)[j]? = some bs[j] := by
    have hj' : i + j < cs.length := by omega
    rw [List.getElem?_drop, List.getD_eq_getElem?_getD, List.getD_eq_getElem?_getD,
      List.getElem?_eq_getElem hj', List.getElem?_eq_getElem hj]
    simp
  exact ⟨fun hocc j hj => (hget j hj).1 (hocc j hj), fun hpre j hj => (hget j hj).2 (hpre j hj)⟩

/-- What a search for `bs` in `cs` returns, forward or in reverse. -/
def IsFound (reverse : Bool) (bs cs : List UInt8) (idx : Usz) : Prop :=
  if reverse then IsLastIdx (fun i => bs <+: cs.drop i) (cs.length + 1 - bs.length) idx
  else IsIdx (fun i => bs <+: cs.drop i) (cs.length + 1 - bs.length) idx

/-- The bytes `CharInString` searches for. -/
def needleBytes (needle : MbChar) (enc : Encoding) : List UInt8 :=
  leBytes (getMultibyteCharSize needle enc).toNat needle.toNat

@[simp] theorem length_needleBytes (needle : MbChar) (enc : Encoding) :
    (needleBytes needle enc).length = (getMultibyteCharSize needle enc).toNat := length_leBytes _ _

section
variable {bs cs : List UInt8} {needle haystack : View}

theorem bufferInBuffer_spec (hpos : 0 < bs.length) (hneedle : Holds needle.rd needle.base bs)
    (hlen : needle.writeCur.toNat = bs.length) (hhay : Holds haystack.rd haystack.base cs)
    (hlen' : haystack.writeCur.toNat = cs.length) (flags : UInt32) :
    (bufferInBuffer needle haystack flags).wp fun r =>
      ∃ idx, r = resultOf flags haystack needle.writeCur idx ∧
      IsFound (flags &&& searchReverse ≠ 0) bs cs idx := by
  have hiff : ∀ i < cs.length + 1 - bs.length,
      (Occurs (cs.getD · 0) (bs.getD · 0) bs.length i ↔ bs <+: cs.drop i) := fun i hi =>
    occurs_iff_prefix (by omega)
  rw [Holds, ← hlen] at hneedle
  rw [Holds, ← hlen'] at hhay
  rw [bufferInBuffer]
  by_cases hrev : flags &&& searchReverse ≠ 0
  · rw [if_pos hrev, Except.wp_bind]
    refine (reverseBufferInBufferIdxSimple_spec (by omega) hneedle hhay).mono fun idx hidx =>
      ⟨idx, rfl, ?_⟩
    rw [IsFound, if_pos (by simpa using hrev)]
    rw [hlen, hlen'] at hidx
    exact hidx.congr hiff
  · rw [if_neg hrev, Except.wp_bind]
    refine (bufferInBufferIdxSimple_spec (by omega) hneedle hhay).mono fun idx hidx =>
      ⟨idx, rfl, ?_⟩
    rw [IsFound, if_neg (by simpa using hrev)]
    rw [hlen, hlen'] at hidx
    exact hidx.congr hiff

theorem byteInBuffer_spec (needle : UInt8) (hhay : Holds haystack.rd haystack.base cs)
    (hlen : haystack.writeCur.toNat = cs.length) (flags : UInt32) :
    (byteInBuffer needle haystack flags).wp fun r => ∃ idx, r = resultOf flags haystack 1 idx ∧
      IsFound (flags &&& searchReverse ≠ 0) [needle] cs idx := by
  have hiff : ∀ i < cs.length, (cs.getD i 0 = needle ↔ [needle] <+: cs.drop i) := fun i hi => by
    have h : Occurs (cs.getD · 0) ([needle].getD · 0) 1 i ↔ [needle] <+: cs.drop i :=
      occurs_iff_prefix hi
    rw [← h]
    exact ⟨fun h0 j hj => by simp at hj; subst hj; simpa using h0,
      fun hocc => by simpa using hocc 0 (by simp)⟩
  rw [Holds, ← hlen] at hhay
  rw [byteInBuffer]
  by_cases hrev : flags &&& searchReverse ≠ 0
  · rw [if_pos hrev, Except.wp_bind]
    refine (reverseByteInBufferIdxSimple_spec hhay).mono fun idx hidx => ⟨idx, rfl, ?_⟩
    rw [IsFound, if_pos (by simpa using hrev)]
    rw [hlen] at hidx
    exact hidx.congr hiff
  · rw [if_neg hrev, Except.wp_bind]
    refine (byteInBufferIdxSimple_spec hhay).mono fun idx hidx => ⟨idx, rfl, ?_⟩
    rw [IsFound, if_neg (by simpa using hrev)]
    rw [hlen] at hidx
    exact hidx.congr hiff

end

/-- A search that starts over at index `k` takes the first of the hits from `k` on, or there are
none. -/
theorem IsFound.mostHits {bs cs : List UInt8} {k : Nat} {idx : Usz} (hk : k ≤ cs.length)
    (h : IsFound false bs (cs.drop k) idx) :
    (k + idx.toNat + bs.length ≤ cs.length ∧
      ∀ c, MostHits (fun i => bs <+: cs.drop i) bs.length cs.length (k + idx.toNat + bs.length) c →
        MostHits (fun i => bs <+: cs.drop i) bs.length cs.length k (c + 1)) ∨
      (idx = invalidIdx ∧ MostHits (fun i => bs <+: cs.drop i) bs.length cs.length k 0) := by
  have hdrop (i : Nat) (hi : k ≤ i) : (cs.drop k).drop (i - k) = cs.drop i := by
    rw [List.drop_drop, Nat.add_sub_cancel' hi]
  rw [IsFound, if_neg Bool.false_ne_true, List.length_drop] at h
  rcases h with hfound | ⟨hidx, hnone⟩
  · have hbound := hfound.lt
    have hsat : bs <+: cs.drop (k + idx.toNat) := by
      rw [← List.drop_drop]; exact hfound.sat
    refine .inl ⟨by omega,
      fun c hc => hc.succ (Nat.le_add_right _ _) hsat (by omega) fun j hkj hj hpj => ?_⟩
    refine hfound.none (j - k) (by omega) ?_
    rwa [hdrop j hkj]
  · refine .inr ⟨hidx, MostHits.zero fun i hki hi hpi => hnone (i - k) (by omega) ?_⟩
    show bs <+: (cs.drop k).drop (i - k)
    rwa [hdrop i hki]

section
variable {cs : List UInt8} {m : Mem} {haystack : String}

/-- `CharInString` searches for the bytes of the word, the lowest first. -/
theorem charInString_spec (needle : MbChar) (hhay : Holds m.read haystack.base cs)
    (hlen : haystack.writeCur.toNat = cs.length) (flags : UInt32) :
    (charInString needle haystack flags m).wp fun r => ∃ idx,
      r = resultOf flags (haystack.toBuffer.view m)
      (getMultibyteCharSize needle haystack.enc).toUInt64 idx ∧
      IsFound (flags &&& searchReverse ≠ 0) (needleBytes needle haystack.enc) cs idx := by
  have hsize := getMultibyteCharSize_le needle haystack.enc
  rw [charInString, Except.wp_ite]
  refine ⟨fun hone => ?_, fun _ => ?_⟩
  · have hbytes : needleBytes needle haystack.enc = [needle.toUInt8] := by
      rw [needleBytes, hone]
      simp [leBytes]
    rw [hbytes, hone]
    exact byteInBuffer_spec needle.toUInt8 hhay hlen flags
  · have hbytes : (leBytes 4 needle.toNat).take (getMultibyteCharSize needle haystack.enc).toNat =
        needleBytes needle haystack.enc := by
      rw [needleBytes, leBytes, leBytes, ← List.map_take, List.take_range, Nat.min_eq_left hsize.2]
    refine bufferInBuffer_spec (by rw [length_needleBytes]; exact hsize.1)
      ?_ (by simp) hhay hlen flags
    refine ((localObject_reads (leBytes 4 needle.toNat)).mono ?_).congr fun i hi => ?_
    · rw [length_needleBytes, length_leBytes]; exact hsize.2
    · rw [length_needleBytes] at hi
      rw [← hbytes, List.getD_eq_getElem?_getD, List.getD_eq_getElem?_getD,
        List.getElem?_take_of_lt hi]

theorem charInString_idxFind (needle : MbChar) (hhay : Holds m.read haystack.base cs)
    (hlen : haystack.writeCur.toNat = cs.length) :
    (charInString needle haystack returnIdxFind m).wp
      (IsFound false (needleBytes needle haystack.enc) cs) := by
  refine (charInString_spec needle hhay hlen returnIdxFind).mono ?_
  rintro _ ⟨idx, rfl, hidx⟩
  exact hidx

theorem charInString_idxFind_reverse (needle : MbChar) (hhay : Holds m.read haystack.base cs)
    (hlen : haystack.writeCur.toNat = cs.length) :
    (charInString needle haystack (returnIdxFind ||| searchReverse) m).wp
      (IsFound true (needleBytes needle haystack.enc) cs) := by
  refine (charInString_spec needle hhay hlen (returnIdxFind ||| searchReverse)).mono ?_
  rintro _ ⟨idx, rfl, hidx⟩
  exact hidx

theorem charInString_idxAfter (needle : MbChar) (hhay : Holds m.read haystack.base cs)
    (hlen : haystack.writeCur.toNat = cs.length) :
    (charInString needle haystack returnIdxAfter m).wp fun r => ∃ idx,
      r = (if idx ≠ invalidIdx then idx + (getMultibyteCharSize needle haystack.enc).toUInt64
        else idx) ∧
      IsFound false (needleBytes needle haystack.enc) cs idx :=
  charInString_spec needle hhay hlen returnIdxAfter

/-- `CountCharInString` counts as many places of the needle's bytes as there are without an overlap.
The index behind a needle is never `INVALID_IDX`: no object is that long. -/
theorem countCharInString_spec (needle : MbChar) (hhay : Holds m.read haystack.base cs)
    (hlen : haystack.writeCur.toNat = cs.length) (hmax : haystack.writeCur ≠ invalidIdx) :
    (countCharInString needle haystack m).wp fun r =>
      MostHits (fun i => needleBytes needle haystack.enc <+: cs.drop i)
        (needleBytes needle haystack.enc).length cs.length 0 r.toNat := by
  have hlt : haystack.writeCur.toNat < 2 ^ 64 - 1 := by
    have hne : haystack.writeCur.toNat ≠ 2 ^ 64 - 1 := fun h => hmax (UInt64.toNat_inj.1 h)
    have := haystack.writeCur.toNat_lt
    omega
  set E := haystack.enc with hE
  set bs := needleBytes needle E with hbs
  set p := fun i => bs <+: cs.drop i
  have hsize : (getMultibyteCharSize needle E).toNat = bs.length :=
    (length_needleBytes needle E).symm
  have hpos : 0 < bs.length := by rw [← hsize]; exact (getMultibyteCharSize_le needle E).1
  have hinvalid : invalidIdx.toNat = 2 ^ 64 - 1 := rfl
  -- `k` bytes have been passed, and what is still to be counted is added to `result`
  refine wp_whileLoop (fun (s, result) => s.enc = E ∧
    ∃ k ≤ cs.length, s.base = haystack.base + UInt64.ofNat k ∧
      s.writeCur.toNat = cs.length - k ∧ result.toNat ≤ k ∧
      ∀ c, MostHits p bs.length cs.length k c → MostHits p bs.length cs.length 0 (result.toNat + c))
    (fun (s, _) => s.writeCur.toNat) ?_ _ ⟨rfl, 0, Nat.zero_le _, by simp, hlen, Nat.le_refl _,
    fun c hc => by simpa using hc⟩ haystack.writeCur.toNat_lt
  rintro ⟨s, result⟩ ⟨henc, k, hk, hbase, hcur, hres, hcount⟩
  have hrest : Holds m.read s.base (cs.drop k) := by
    have hk64 : (UInt64.ofNat k).toNat = k := UInt64.toNat_ofNat_of_lt_two_pow (by omega)
    rw [Holds, List.length_drop, hbase]
    refine (hhay.shift (UInt64.ofNat k) (by omega) (by omega)).congr fun i hi => ?_
    rw [hk64, List.getD_eq_getElem?_getD, List.getD_eq_getElem?_getD, List.getElem?_drop]
  rw [Except.wp_bind]
  refine (charInString_idxAfter needle hrest (by rw [List.length_drop]; exact hcur)).mono ?_
  rintro _ ⟨idx, rfl, hidx⟩
  rw [henc, ← hbs] at hidx
  rw [henc]
  rcases hidx.mostHits hk with ⟨hfits, hnext⟩ | ⟨rfl, hnone⟩
  · have hafter : (idx + (getMultibyteCharSize needle E).toUInt64).toNat =
        idx.toNat + bs.length := by
      rw [UInt64.toNat_add, UInt32.toNat_toUInt64, hsize]
      exact Nat.mod_eq_of_lt (by omega)
    have hne : idx ≠ invalidIdx := fun h => by rw [h] at hfits; omega
    rw [if_pos hne]
    generalize hw : idx + (getMultibyteCharSize needle E).toUInt64 = after at hafter ⊢
    have hne' : after ≠ invalidIdx := fun h => by rw [h] at hafter; omega
    have hcur' : (s.writeCur - after).toNat = cs.length - (k + idx.toNat + bs.length) := by
      rw [UInt64.toNat_sub_of_toNat_le (by omega), hafter, hcur]
      omega
    have hsucc : (result + 1).toNat = result.toNat + 1 := UInt64.toNat_add_one (by omega)
    have hofNat : after = UInt64.ofNat (idx.toNat + bs.length) := by
      rw [← hafter, UInt64.ofNat_toNat]
    rw [if_pos hne', Except.wp_pure, Ctl.post_next]
    refine ⟨⟨rfl, k + idx.toNat + bs.length, hfits, ?_, hcur', by omega, fun c hc => ?_⟩, ?_⟩
    · show s.base + after = _
      rw [hofNat, hbase, UInt64.add_assoc, ← UInt64.ofNat_add, Nat.add_assoc]
    · rw [hsucc, Nat.add_assoc, Nat.add_comm 1 c]
      exact hcount (c + 1) (hnext c hc)
    · show (s.writeCur - after).toNat < s.writeCur.toNat
      omega
  · rw [if_neg (not_not.2 rfl), if_neg (not_not.2 rfl), Except.wp_pure, Ctl.post_done]
    exact hcount 0 hnone

end

/-! ### What a caller gets -/

/-- What a caller of a search can ask for. -/
inductive ReturnFlag where
  | bool
  | idxFind
  | idxAfter
  | ptrFind
  | ptrAfter
deriving DecidableEq, Repr

namespace ReturnFlag

def value : ReturnFlag → UInt32
  | bool => returnBool
  | idxFind => returnIdxFind
  | idxAfter => returnIdxAfter
  | ptrFind => returnPtrFind
  | ptrAfter => returnPtrAfter

/-- The flags of a search in either direction. -/
def flags (flag : ReturnFlag) (reverse : Bool) : UInt32 :=
  if reverse then flag.value ||| searchReverse else flag.value

/-- The answer when a needle of `len` bytes stands at `i`. -/
def found (flag : ReturnFlag) (base : Ptr) (len i : Nat) : Usz :=
  match flag with
  | bool => 1
  | idxFind => UInt64.ofNat i
  | idxAfter => UInt64.ofNat (i + len)
  | ptrFind => base + UInt64.ofNat i
  | ptrAfter => base + UInt64.ofNat (i + len)

/-- The answer when it stands nowhere. -/
def notFound : ReturnFlag → Usz
  | idxFind | idxAfter => invalidIdx
  | _ => 0

def answer (flag : ReturnFlag) (base : Ptr) (len : Nat) (start : Option Nat) : Usz :=
  start.elim flag.notFound (flag.found base len)

theorem decide_reverse (flag : ReturnFlag) (reverse : Bool) :
    decide (flag.flags reverse &&& searchReverse ≠ 0) = reverse := by
  cases flag <;> cases reverse <;> decide

/-- The functions make of an index what their flag says. -/
theorem resultOf_flags (flag : ReturnFlag) (reverse : Bool) (haystack : View) (len idx : Usz) :
    resultOf (flag.flags reverse) haystack len idx =
      match flag with
      | bool => if idx ≠ invalidIdx then 1 else 0
      | idxFind => idx
      | idxAfter => if idx ≠ invalidIdx then idx + len else idx
      | ptrFind => if idx ≠ invalidIdx then haystack.base + idx else 0
      | ptrAfter => if idx ≠ invalidIdx then haystack.base + idx + len else 0 := by
  cases flag <;> cases reverse <;> rfl

theorem resultOf_found (flag : ReturnFlag) (reverse : Bool) (haystack : View) (len : Usz)
    {idx : Usz} (hidx : idx ≠ invalidIdx) :
    resultOf (flag.flags reverse) haystack len idx =
      flag.found haystack.base len.toNat idx.toNat := by
  rw [resultOf_flags]
  cases flag <;> simp [found, hidx, UInt64.ofNat_add, UInt64.add_assoc]

theorem resultOf_notFound (flag : ReturnFlag) (reverse : Bool) (haystack : View) (len : Usz) :
    resultOf (flag.flags reverse) haystack len invalidIdx = flag.notFound := by
  rw [resultOf_flags]
  cases flag <;> rfl

end ReturnFlag

/-- `bs` stands at index `i` of `cs`, within its bounds. -/
def Stands (bs cs : List UInt8) (i : Nat) : Prop := i + bs.length ≤ cs.length ∧ bs <+: cs.drop i

/-- The least index at which `bs` stands, or with `reverse` the greatest, if there is one. -/
def IsStart (reverse : Bool) (bs cs : List UInt8) : Option Nat → Prop
  | some i => Stands bs cs i ∧ ∀ j, Stands bs cs j → if reverse then j ≤ i else i ≤ j
  | none => ∀ i, ¬ Stands bs cs i

section
variable {bs cs : List UInt8} {needle haystack : View} {idx : Usz}

theorem IsFound.isStart {reverse : Bool} (hpos : bs ≠ []) (hlen : cs.length < 2 ^ 64)
    (h : IsFound reverse bs cs idx) :
    idx ≠ invalidIdx ∧ IsStart reverse bs cs (some idx.toNat) ∨ idx = invalidIdx ∧
      IsStart reverse bs cs none := by
  have hbs := List.length_pos_iff.2 hpos
  have hinvalid : invalidIdx.toNat = 2 ^ 64 - 1 := rfl
  have hne (hi : idx.toNat < cs.length + 1 - bs.length) : idx ≠ invalidIdx := fun heq => by
    rw [heq] at hi
    omega
  have hnone (hn : NoneBelow (fun i => bs <+: cs.drop i) (cs.length + 1 - bs.length)) (i : Nat) :
      ¬ Stands bs cs i :=
    fun hi => hn i (by have := hi.1; omega) hi.2
  rw [IsFound] at h
  cases reverse with
  | false =>
    rw [if_neg Bool.false_ne_true] at h
    rcases h with hfound | ⟨hidx, hn⟩
    · have hlt := hfound.lt
      refine .inl ⟨hne hlt, ⟨by omega, hfound.sat⟩,
        fun j hj => Nat.le_of_not_lt fun hji => hfound.none j hji hj.2⟩
    · exact .inr ⟨hidx, hnone hn⟩
  | true =>
    rw [if_pos rfl] at h
    rcases h with hfound | ⟨hidx, hn⟩
    · have hlt := hfound.lt
      refine .inl ⟨hne hlt, ⟨by omega, hfound.sat⟩, fun j hj => Nat.le_of_not_lt fun hji => ?_⟩
      exact hfound.none j hji (by have := hj.1; omega) hj.2
    · exact .inr ⟨hidx, hnone hn⟩

theorem IsStart.unique {reverse : Bool} {start start' : Option Nat}
    (h : IsStart reverse bs cs start) (h' : IsStart reverse bs cs start') : start = start' := by
  cases start with
  | none =>
    cases start' with
    | none => rfl
    | some i' => exact absurd h'.1 (h i')
  | some i =>
    cases start' with
    | none => exact absurd h.1 (h' i)
    | some i' =>
      have hle := h.2 i' h'.1
      have hge := h'.2 i h.1
      cases reverse
      · exact congrArg some (Nat.le_antisymm hle hge)
      · exact congrArg some (Nat.le_antisymm hge hle)

/-- What a search that has found `idx` gives its caller. -/
theorem IsFound.answer_eq {reverse : Bool} (hpos : bs ≠ []) (hlen : cs.length < 2 ^ 64)
    (h : IsFound reverse bs cs idx) (flag : ReturnFlag) {len : Usz} (hbs : len.toNat = bs.length) :
    ∃ start, IsStart reverse bs cs start ∧
      resultOf (flag.flags reverse) haystack len idx =
      flag.answer haystack.base bs.length start := by
  rcases h.isStart hpos hlen with ⟨hne, hstart⟩ | ⟨rfl, hstart⟩
  · refine ⟨_, hstart, ?_⟩
    rw [flag.resultOf_found reverse haystack len hne, hbs]
    rfl
  · exact ⟨_, hstart, flag.resultOf_notFound reverse haystack len⟩

theorem bufferInBuffer_answer (hpos : bs ≠ []) (hneedle : Holds needle.rd needle.base bs)
    (hlen : needle.writeCur.toNat = bs.length) (hhay : Holds haystack.rd haystack.base cs)
    (hlen' : haystack.writeCur.toNat = cs.length) (flag : ReturnFlag) (reverse : Bool) :
    ∃ start, IsStart reverse bs cs start ∧
      bufferInBuffer needle haystack (flag.flags reverse) =
      .ok (flag.answer haystack.base bs.length start) := by
  have hsearch :=
    bufferInBuffer_spec (List.length_pos_iff.2 hpos) hneedle hlen hhay hlen' (flag.flags reverse)
  obtain ⟨r, hr, idx, rfl, hidx⟩ := Except.wp_iff.1 hsearch
  rw [flag.decide_reverse reverse] at hidx
  obtain ⟨start, hstart, hanswer⟩ :=
    hidx.answer_eq hpos (hlen' ▸ haystack.writeCur.toNat_lt) flag hlen
  exact ⟨start, hstart, by rw [hr, hanswer]⟩

theorem byteInBuffer_answer (b : UInt8) (hhay : Holds haystack.rd haystack.base cs)
    (hlen' : haystack.writeCur.toNat = cs.length) (flag : ReturnFlag) (reverse : Bool) :
    ∃ start, IsStart reverse [b] cs start ∧
      byteInBuffer b haystack (flag.flags reverse) = .ok (flag.answer haystack.base 1 start) := by
  have hsearch := byteInBuffer_spec b hhay hlen' (flag.flags reverse)
  obtain ⟨r, hr, idx, rfl, hidx⟩ := Except.wp_iff.1 hsearch
  rw [flag.decide_reverse reverse] at hidx
  obtain ⟨start, hstart, hanswer⟩ :=
    hidx.answer_eq (List.cons_ne_nil b []) (hlen' ▸ haystack.writeCur.toNat_lt) flag
    (rfl : (1 : Usz).toNat = [b].length)
  exact ⟨start, hstart, by rw [hr, hanswer]; rfl⟩

end

/-- The searches return what each flag asks for, of the least place of the needle or of the
greatest, and a byte is searched for as the buffer of it. -/
theorem searches_answer (needle haystack : View) (bs cs : List UInt8) (flag : ReturnFlag)
    (reverse : Bool) (hpos : bs ≠ []) (hneedle : Holds needle.rd needle.base bs)
    (hlen : needle.writeCur.toNat = bs.length) (hhay : Holds haystack.rd haystack.base cs)
    (hlen' : haystack.writeCur.toNat = cs.length) : (∃ start, IsStart reverse bs cs start ∧
      bufferInBuffer needle haystack (flag.flags reverse) =
      .ok (flag.answer haystack.base bs.length start)) ∧
    ∀ b, bs = [b] → byteInBuffer b haystack (flag.flags reverse) = bufferInBuffer needle haystack
      (flag.flags reverse) := by
  obtain ⟨start, hstart, hanswer⟩ := bufferInBuffer_answer hpos hneedle hlen hhay hlen' flag reverse
  refine ⟨⟨start, hstart, hanswer⟩, ?_⟩
  rintro b rfl
  obtain ⟨start', hstart', hanswer'⟩ := byteInBuffer_answer b hhay hlen' flag reverse
  rw [hanswer, hanswer', hstart.unique hstart']
  rfl

theorem searches_answer_overlap : ∃ start, IsStart true [97, 98, 97] [97, 98, 97, 98, 97] start ∧
    bufferInBuffer ⟨localObject [97, 98, 97], 0, 3⟩ ⟨localObject [97, 98, 97, 98, 97], 0, 5⟩ 0x84 =
      .ok (ReturnFlag.idxAfter.answer 0 3 start) :=
  (searches_answer ⟨localObject [97, 98, 97], 0, 3⟩ ⟨localObject [97, 98, 97, 98, 97], 0, 5⟩
    [97, 98, 97] [97, 98, 97, 98, 97]
    .idxAfter true (List.cons_ne_nil _ _) (localObject_reads _) rfl (localObject_reads _) rfl).1

end TinyBase
