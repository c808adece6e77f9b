import TinyBase.Transcode

/-!
# Repeated append (`AppendBufferToBufferNTimes`, `AppendCharToStringNTimes`,
`AppendStringToStringNTimes`)

The buffer function checks once that the product of the two sizes fits, and then moves `WriteCur`
for each copy without asking whether it was made. The product is that of 64-bit words. The string
function transcodes copy by copy and does not look at the results at all.
-/

namespace TinyBase
open Unicode

/-- `AppendBufferToBufferNTimes`. Each copy reads the source anew: `rd` reads it while the memory is
as given. -/
def appendBufferToBufferNTimes (rd : Mem → Reader) (src : Buffer) (count : Usz)
    (dst : Buffer) (m : Mem) : Res (Bool × Buffer × Mem) :=
  let totalSizeToWrite := src.writeCur * count
  let remainingSize := dst.size - dst.writeCur
  if totalSizeToWrite ≤ remainingSize then
    whileLoop (fun (count, dst, m) =>
      if count ≠ 0 then do
        let (_, m) ← copyData m (dst.base + dst.writeCur) (dst.size - dst.writeCur)
            (rd m) src.base src.writeCur
        pure (.next (count - 1, { dst with writeCur := dst.writeCur + src.writeCur }, m))
      else pure (.done (true, dst, m))) (count, dst, m)
  else pure (false, dst, m)

/-- `AppendBufferToBufferNTimes(Src, Count, &Dst->Buffer)`. -/
def appendBufferToStringNTimes (rd : Mem → Reader) (src : Buffer) (count : Usz)
    (dst : String) (m : Mem) : Res (Bool × String × Mem) := do
  let (result, buffer, m) ← appendBufferToBufferNTimes rd src count dst.toBuffer m
  pure (result, { dst with toBuffer := buffer }, m)

def appendCharToStringNTimes (src : MbChar) (count : Usz) (dst : String) (m : Mem) :
    Res (Bool × String × Mem) :=
  let charSize := getMultibyteCharSize src dst.enc
  let src := adjustEndianness src dst.enc
  appendBufferToStringNTimes (fun _ => localObject (leBytes 4 src.toNat))
    ⟨0, charSize.toUInt64, 0⟩ count dst m

def appendStringToStringNTimes (src : String) (count : Usz) (dst : String) (m : Mem) :
    Res (Bool × String × Mem) :=
  if src.enc = dst.enc then appendBufferToStringNTimes Mem.read src.toBuffer count dst m
  else
    whileLoop (fun (idx, dst, m) =>
      if idx < count then do
        let (_, dst, m) ← transcode src dst m
        pure (.next (idx + 1, dst, m))
      else pure (.done (true, dst, m))) ((0 : Usz), dst, m)

/-- The bytes that are left in a buffer. -/
def Buffer.room (buf : Buffer) : Nat := buf.size.toNat - buf.writeCur.toNat

theorem Buffer.room_eq {buf : Buffer} (hcur : buf.writeCur ≤ buf.size) :
    (buf.size - buf.writeCur).toNat = buf.room ∧ buf.writeCur.toNat + buf.room = buf.size.toNat :=
  ⟨UInt64.toNat_sub_of_le _ _ hcur, Nat.add_sub_cancel' (UInt64.le_iff_toNat_le.1 hcur)⟩

/-- `count` copies of `bs` appended to `dst` if all of them fit, and nothing otherwise. -/
def CopiesAppended (bs : List UInt8) (count : Nat) (dst : Buffer) (m : Mem)
    (r : Bool × Buffer × Mem) : Prop :=
  (if count * bs.length ≤ dst.room then
    r = (true, { dst with writeCur := dst.writeCur + UInt64.ofNat (count * bs.length) },
      m.store (dst.base + dst.writeCur) (List.replicate count bs).flatten)
  else r = (false, dst, m)) ∧ r.2.1.writeCur ≤ r.2.1.size

theorem flatten_replicate_succ {α : Type} (k : Nat) (bs : List α) :
    (List.replicate (k + 1) bs).flatten = (List.replicate k bs).flatten ++ bs := by
  rw [List.replicate_succ', List.flatten_append, List.flatten_singleton]

theorem length_copies {α : Type} (k : Nat) (bs : List α) :
    (List.replicate k bs).flatten.length = k * bs.length := by
  simp

theorem pred_of_ne_zero {n : Usz} (h : n ≠ 0) : (n - 1).toNat + 1 = n.toNat := by
  have hpos : 0 < n.toNat := Nat.pos_of_ne_zero fun h0 => h (UInt64.toNat_inj.1 h0)
  have hone : (1 : Usz) ≤ n := UInt64.le_iff_toNat_le.2 hpos
  rw [UInt64.toNat_sub_of_le _ _ hone]
  exact Nat.sub_add_cancel hpos

section
variable {rd : Mem → Reader} {src dst : Buffer} {count : Usz} {m : Mem} {bs : List UInt8}

/-- Behind `k` copies there is room for another one. -/
theorem copyData_next (hsrc : ∀ out : List UInt8, out.length ≤ dst.room →
      Holds (rd (m.store (dst.base + dst.writeCur) out)) src.base bs)
    (hlen : src.writeCur.toNat = bs.length) (hcur : dst.writeCur ≤ dst.size)
    (hw : ∀ i : Usz, i.toNat < dst.room → m.writable (dst.base + dst.writeCur + i)) {k : Nat}
    (hnext : (k + 1) * bs.length ≤ dst.room) :
    copyData (m.store (dst.base + dst.writeCur) (List.replicate k bs).flatten)
        (dst.base + (dst.writeCur + UInt64.ofNat (k * bs.length)))
        (dst.size - (dst.writeCur + UInt64.ofNat (k * bs.length)))
        (rd (m.store (dst.base + dst.writeCur) (List.replicate k bs).flatten)) src.base
        src.writeCur =
      .ok (true, m.store (dst.base + dst.writeCur) (List.replicate (k + 1) bs).flatten) := by
  have hsize := dst.size.toNat_lt
  obtain ⟨hroom, hsum⟩ := Buffer.room_eq hcur
  rw [Nat.add_mul, Nat.one_mul] at hnext
  have hnow : (dst.writeCur + UInt64.ofNat (k * bs.length)).toNat =
      dst.writeCur.toNat + k * bs.length :=
    UInt64.toNat_add_ofNat (by omega)
  have hleft : src.writeCur ≤ dst.size - (dst.writeCur + UInt64.ofNat (k * bs.length)) := by
    rw [UInt64.le_iff_toNat_le, UInt64.toNat_sub_of_toNat_le (by omega), hnow, hlen]
    omega
  have hread := hsrc (List.replicate k bs).flatten (by rw [length_copies]; omega)
  have hfree (i : Usz) (hi : i.toNat < src.writeCur.toNat) :
      m.writable (dst.base + (dst.writeCur + UInt64.ofNat (k * bs.length)) + i) := by
    have hki : (UInt64.ofNat (k * bs.length) + i).toNat = k * bs.length + i.toNat :=
      UInt64.toNat_ofNat_add (by omega)
    rw [← UInt64.add_assoc, UInt64.add_assoc]
    exact hw _ (by omega)
  have hbs : (List.range src.writeCur.toNat).map (bs.getD · 0) = bs := by
    rw [hlen, map_getD_range (Nat.le_refl _), List.take_length]
  have hjoin := @Mem.store_append m (dst.base + dst.writeCur) (List.replicate k bs).flatten bs
    (by rw [length_copies]; omega)
  rw [length_copies, ← flatten_replicate_succ] at hjoin
  have hcopy :=
    copyData_of_le (m := m.store (dst.base + dst.writeCur) (List.replicate k bs).flatten)
    (f := (bs.getD · 0)) (by rw [hlen]; exact hread) hleft hfree
  rw [hbs, ← UInt64.add_assoc, hjoin] at hcopy
  rw [← UInt64.add_assoc, hcopy]

/-- The loop writes all copies when they fit, whatever has been stored so far. -/
theorem appendNTimes_of_fits (hsrc : ∀ out : List UInt8, out.length ≤ dst.room →
      Holds (rd (m.store (dst.base + dst.writeCur) out)) src.base bs)
    (hlen : src.writeCur.toNat = bs.length) (hcur : dst.writeCur ≤ dst.size)
    (hw : ∀ i : Usz, i.toNat < dst.room → m.writable (dst.base + dst.writeCur + i))
    (hfits : count.toNat * bs.length ≤ dst.room) :
    appendBufferToBufferNTimes rd src count dst m =
      .ok (true, { dst with writeCur := dst.writeCur + UInt64.ofNat (count.toNat * bs.length) },
        m.store (dst.base + dst.writeCur) (List.replicate count.toNat bs).flatten) := by
  have hsize := dst.size.toNat_lt
  obtain ⟨hroom, hsum⟩ := Buffer.room_eq hcur
  have hprod : (src.writeCur * count).toNat = count.toNat * bs.length := by
    rw [UInt64.toNat_mul, hlen, Nat.mul_comm]
    exact Nat.mod_eq_of_lt (by omega)
  have htotal : src.writeCur * count ≤ dst.size - dst.writeCur := by
    rw [UInt64.le_iff_toNat_le, hprod, hroom]
    exact hfits
  rw [appendBufferToBufferNTimes, if_pos htotal]
  -- `k` copies have been made
  refine Except.wp_eq.1 (wp_whileLoop (fun st => ∃ k, k + st.1.toNat = count.toNat ∧
    st.2.1 = { dst with writeCur := dst.writeCur + UInt64.ofNat (k * bs.length) } ∧
    st.2.2 = m.store (dst.base + dst.writeCur) (List.replicate k bs).flatten)
    (fun st => st.1.toNat) ?_ _ ⟨0, Nat.zero_add _, by simp, by simp⟩ count.toNat_lt)
  rintro ⟨n, _, _⟩ ⟨k, hk, rfl, rfl⟩
  dsimp only at hk
  rw [Except.wp_ite]
  refine ⟨fun hn => ?_, fun hn => ?_⟩
  · have hpred := pred_of_ne_zero hn
    have hnext : (k + 1) * bs.length ≤ dst.room :=
      Nat.le_trans (Nat.mul_le_mul_right _ (by omega)) hfits
    dsimp only
    rw [copyData_next hsrc hlen hcur hw hnext, Except.ok_bind, Except.wp_pure]
    refine ⟨⟨k + 1, by dsimp only; omega, ?_, rfl⟩, show (n - 1).toNat < n.toNat by omega⟩
    have hword : src.writeCur = UInt64.ofNat bs.length := by rw [← hlen, UInt64.ofNat_toNat]
    dsimp only
    rw [hword, UInt64.add_assoc, ← UInt64.ofNat_add, Nat.add_mul, Nat.one_mul]
  · obtain rfl : n = 0 := not_not.1 hn
    obtain rfl : k = count.toNat := hk
    exact rfl

theorem appendNTimes_of_lt (hlt : dst.size - dst.writeCur < src.writeCur * count) :
    appendBufferToBufferNTimes rd src count dst m = .ok (false, dst, m) := by
  rw [appendBufferToBufferNTimes, if_neg (UInt64.not_le.2 hlt)]
  rfl

/-- Once the check has passed, the call does not return `false`. -/
theorem appendNTimes_true (hle : src.writeCur * count ≤ dst.size - dst.writeCur)
    {r : Bool × Buffer × Mem} (h : appendBufferToBufferNTimes rd src count dst m = .ok r) :
    r.1 = true := by
  rw [appendBufferToBufferNTimes, if_pos hle] at h
  refine of_whileLoop_ok (Q := fun r => r.1 = true) (fun _ => True) ?_ trivial h
  rintro ⟨n, dst, m⟩ c - hc
  dsimp only at hc
  split_ifs at hc
  · rw [Except.bind_eq_ok] at hc
    obtain ⟨r, -, hc⟩ := hc
    cases hc
    trivial
  · cases hc
    rfl

/-- The two cases in which the check compares what it is meant to. -/
theorem appendNTimes_wp_iff (hsrc : ∀ out : List UInt8, out.length ≤ dst.room →
      Holds (rd (m.store (dst.base + dst.writeCur) out)) src.base bs)
    (hlen : src.writeCur.toNat = bs.length) (hcur : dst.writeCur ≤ dst.size)
    (hw : ∀ i : Usz, i.toNat < dst.room → m.writable (dst.base + dst.writeCur + i)) :
    (appendBufferToBufferNTimes rd src count dst m).wp (CopiesAppended bs count.toNat dst m) ↔
      count.toNat * src.writeCur.toNat < 2 ^ 64 ∨
      dst.size - dst.writeCur < src.writeCur * count := by
  have hsize := dst.size.toNat_lt
  obtain ⟨hroom, hsum⟩ := Buffer.room_eq hcur
  have hprod : (src.writeCur * count).toNat = count.toNat * bs.length % 2 ^ 64 := by
    rw [UInt64.toNat_mul, hlen, Nat.mul_comm]
  rw [hlen]
  by_cases hlt : dst.size - dst.writeCur < src.writeCur * count
  · -- the remainder is too large, so the product is
    have hmod := Nat.mod_le (count.toNat * bs.length) (2 ^ 64)
    have hover : ¬ count.toNat * bs.length ≤ dst.room := by
      rw [UInt64.lt_iff_toNat_lt, hprod, hroom] at hlt
      omega
    rw [appendNTimes_of_lt hlt, Except.wp_ok, CopiesAppended, if_neg hover]
    exact ⟨fun _ => .inr hlt, fun _ => ⟨rfl, hcur⟩⟩
  · by_cases hwrap : count.toNat * bs.length < 2 ^ 64
    · have hfits : count.toNat * bs.length ≤ dst.room := by
        rw [UInt64.lt_iff_toNat_lt, hprod, hroom, Nat.mod_eq_of_lt hwrap] at hlt
        omega
      have hend : (dst.writeCur + UInt64.ofNat (count.toNat * bs.length)).toNat =
          dst.writeCur.toNat + count.toNat * bs.length := UInt64.toNat_add_ofNat (by omega)
      rw [appendNTimes_of_fits hsrc hlen hcur hw hfits, Except.wp_ok, CopiesAppended, if_pos hfits]
      exact ⟨fun _ => .inl hwrap,
        fun _ => ⟨rfl, UInt64.le_iff_toNat_le.2 (by rw [hend]; show _ ≤ dst.size.toNat; omega)⟩⟩
    · have hover : ¬ count.toNat * bs.length ≤ dst.room := by omega
      refine ⟨fun h => ?_, fun h => absurd h (not_or.2 ⟨hwrap, hlt⟩)⟩
      obtain ⟨r, hr, hdone, -⟩ := Except.wp_iff.1 h
      have htrue := appendNTimes_true (UInt64.not_lt.1 hlt) hr
      rw [if_neg hover] at hdone
      rw [hdone] at htrue
      cases htrue

end

/-- `AppendBufferToBufferNTimes` appends all copies or none exactly when the product of count and
size does not wrap around, or wraps around to more than there is room for. -/
theorem appendBufferToBufferNTimes_iff (src dst : Buffer) (count : Usz) (m : Mem) (bs : List UInt8)
    (hsrc : Holds m.read src.base bs) (hlen : src.writeCur.toNat = bs.length)
    (hcur : dst.writeCur ≤ dst.size)
    (hw : ∀ i : Usz, i.toNat < dst.room → m.writable (dst.base + dst.writeCur + i))
    (hapart : Apart src.base src.writeCur.toNat (dst.base + dst.writeCur) dst.room) :
    (appendBufferToBufferNTimes Mem.read src count dst m).wp (CopiesAppended bs count.toNat dst m) ↔
      count.toNat * src.writeCur.toNat < 2 ^ 64 ∨ dst.size - dst.writeCur < src.writeCur * count :=
  appendNTimes_wp_iff (fun _ hout => Mem.reads_store hsrc (hlen ▸ hapart) hout) hlen hcur hw

def twoBytesMem : Mem :=
  (⟨fun _ => 0, fun _ => true, fun a => decide (InRange 64 8 a)⟩ : Mem).store 16 [1, 2]

theorem appendBufferToBufferNTimes_three :
    (appendBufferToBufferNTimes Mem.read ⟨16, 2, 2⟩ 3 ⟨64, 1, 8⟩ twoBytesMem).wp
      (CopiesAppended [1, 2] 3 ⟨64, 1, 8⟩ twoBytesMem) := by
  have hfree (i : Usz) (hi : i.toNat < 7) : twoBytesMem.writable (65 + i) := by
    have hin : InRange 64 8 (64 + (1 + i)) := by
      rw [inRange_add, UInt64.toNat_add_of_lt (by simp; omega)]
      simp; omega
    exact decide_eq_true (by rwa [← UInt64.add_assoc] at hin)
  exact (appendBufferToBufferNTimes_iff ⟨16, 2, 2⟩ ⟨64, 1, 8⟩ 3 twoBytesMem
    [1, 2] (Mem.holds_store fun _ _ => rfl) rfl
    (by decide) hfree (apart_of_le (by decide) (by decide))).2 (.inl (by decide))

/-- A source of `2 ^ 32` bytes, `2 ^ 32` times: the check compares `0`, and the second copy writes
behind a destination of eight bytes. -/
theorem appendBufferToBufferNTimes_wraps : ∃ bs : List UInt8, bs.length = 0x100000000 ∧
    Holds twoBytesMem.read 0x100000000 bs ∧
    ¬ (appendBufferToBufferNTimes Mem.read ⟨0x100000000, 0x100000000, 0x100000000⟩ 0x100000000
      ⟨64, 0, 8⟩ twoBytesMem).wp (CopiesAppended bs 0x100000000 ⟨64, 0, 8⟩ twoBytesMem) := by
  have hread : Reads twoBytesMem.read 0x100000000 0x100000000 (twoBytesMem.bytesFrom 0x100000000) :=
    Mem.Readable.reads fun _ _ => rfl
  have hholds := hread.holds
  have hlen : ((List.range 0x100000000).map (twoBytesMem.bytesFrom 0x100000000)).length =
      0x100000000 := by
    rw [List.length_map, List.length_range]
  generalize (List.range 0x100000000).map (twoBytesMem.bytesFrom 0x100000000) = bs at hholds hlen
  refine ⟨bs, hlen, hholds, fun h => ?_⟩
  obtain ⟨r, hr, hdone, -⟩ := Except.wp_iff.1 h
  have htrue := appendNTimes_true (by decide) hr
  rw [hlen, if_neg (by decide)] at hdone
  rw [hdone] at htrue
  cases htrue

/-- A character repeated: the same condition, on the size of the character. -/
theorem appendCharToStringNTimes_iff (src : MbChar) (count : Usz) (dst : String)
    (m : Mem) (hdst : Writable m dst) :
    (appendCharToStringNTimes src count dst m).wp (fun r =>
      CopiesAppended (charBytes src dst.enc) count.toNat dst.toBuffer m
      (r.1, r.2.1.toBuffer, r.2.2) ∧ r.2.1.enc = dst.enc) ↔
      count.toNat * (charBytes src dst.enc).length < 2 ^ 64 ∨
        dst.size - dst.writeCur < (getMultibyteCharSize src dst.enc).toUInt64 * count := by
  have hsize := getMultibyteCharSize_le src dst.enc
  have hlen : (getMultibyteCharSize src dst.enc).toUInt64.toNat =
      (charBytes src dst.enc).length := by
    rw [length_charBytes, UInt32.toNat_toUInt64]
  have hsrc : Holds (localObject (leBytes 4 (adjustEndianness src dst.enc).toNat)) 0
      (charBytes src dst.enc) := by
    rw [Holds, ← hlen, UInt32.toNat_toUInt64]
    refine ((localObject_reads _).mono (by rw [length_leBytes]; exact hsize.2)).congr fun i hi => ?_
    rw [charBytes, getD_leBytes (by omega), getD_leBytes hi]
  have hiff :=
    @appendNTimes_wp_iff (fun _ => localObject (leBytes 4 (adjustEndianness src dst.enc).toNat))
    ⟨0, (getMultibyteCharSize src dst.enc).toUInt64, 0⟩ dst.toBuffer count m _
    (fun _ _ => hsrc) hlen hdst.cur hdst.free
  rw [← hlen, ← hiff, appendCharToStringNTimes, appendBufferToStringNTimes, Except.wp_bind]
  refine ⟨fun h => h.mono ?_, fun h => h.mono ?_⟩
  · rintro ⟨r, buf, m'⟩ ⟨hr, -⟩
    exact hr
  · rintro ⟨r, buf, m'⟩ hr
    exact ⟨hr, rfl⟩

/-! ### Transcoding copy by copy -/

section
variable {src dst : String} {count : Usz} {m : Mem} {f : Nat → UInt8}

theorem SourceOf.grown (h : SourceOf m src dst f) (hdst : Writable m dst) {out : List UInt8}
    (hout : out.length ≤ dst.room) :
    SourceOf (m.store (dst.base + dst.writeCur) out) src (dst.grown out.length) f := by
  have hroom := hdst.room_eq
  have hsmall := hdst.small
  have hcur := hdst.toNat_grown hout
  refine ⟨Mem.reads_store h.reads h.apart hout, fun a ha hin => h.apart a ha ?_,
    h.readFits, h.walkFits⟩
  rw [String.room, hcur, String.grown_size] at hin
  have hin' : InRange (dst.base + dst.writeCur + UInt64.ofNat out.length)
      (dst.size.toNat - (dst.writeCur.toNat + out.length)) a := by
    rw [UInt64.add_assoc]
    exact hin
  have hword : (UInt64.ofNat out.length).toNat = out.length :=
    UInt64.toNat_ofNat_of_lt_two_pow (by omega)
  exact hin'.of_add (by rw [hword]; omega)

theorem appendStringToStringNTimes_of_fits (hsrc : SourceOf m src dst f) (hdst : Writable m dst)
    (henc : src.enc ≠ dst.enc) {bs : List UInt8}
    (hbs : bs = transcoded src.enc dst.enc f src.writeCur.toNat)
    (hfits : count.toNat * bs.length ≤ dst.room) :
    appendStringToStringNTimes src count dst m = .ok (true, dst.grown (count.toNat * bs.length),
      m.store (dst.base + dst.writeCur) (List.replicate count.toNat bs).flatten) := by
  rw [appendStringToStringNTimes, if_neg henc]
  refine Except.wp_eq.1 (wp_whileLoop (fun st => st.1.toNat ≤ count.toNat ∧
    st.2.1 = dst.grown (st.1.toNat * bs.length) ∧
    st.2.2 = m.store (dst.base + dst.writeCur) (List.replicate st.1.toNat bs).flatten)
    (fun st => count.toNat - st.1.toNat) ?_ _ ⟨Nat.zero_le _, by simp, by simp⟩
    (Nat.lt_of_le_of_lt (Nat.sub_le _ _) count.toNat_lt))
  rintro ⟨idx, dst', m'⟩ ⟨hle, hdst', hm'⟩
  dsimp only at hle hdst' hm' ⊢
  subst hdst' hm'
  rw [Except.wp_ite]
  refine ⟨fun hlt => ?_, fun hge => ?_⟩
  · rw [UInt64.lt_iff_toNat_lt] at hlt
    have hcount := count.toNat_lt
    have hidx : (idx + 1).toNat = idx.toNat + 1 := UInt64.toNat_add_one (by omega)
    have hnext : (idx.toNat + 1) * bs.length ≤ dst.room :=
      Nat.le_trans (Nat.mul_le_mul_right _ hlt) hfits
    rw [Nat.add_mul, Nat.one_mul] at hnext
    have hlen := length_copies idx.toNat bs
    have hout : (List.replicate idx.toNat bs).flatten.length ≤ dst.room := by omega
    have hleft : bs.length ≤ (dst.grown (List.replicate idx.toNat bs).flatten.length).room := by
      rw [String.room, hdst.toNat_grown hout, hlen, String.grown_size]
      have := hdst.room_eq
      omega
    have hdst' :=
      hdst.grown hout (m.store (dst.base + dst.writeCur) (List.replicate idx.toNat bs).flatten) rfl
    have hrun := (transcode_spec hdst' (hsrc.grown hdst hout)).of_le
      (by rw [String.grown_enc, ← hbs]; exact hleft)
    rw [String.grown_enc, ← hbs, hdst.store_grown (by omega), ← flatten_replicate_succ,
      String.grown_grown, hlen] at hrun
    rw [hrun, Except.ok_bind, Except.wp_pure, Ctl.post_next, hidx]
    exact ⟨⟨hlt, by rw [Nat.add_mul, Nat.one_mul], rfl⟩, by omega⟩
  · rw [UInt64.lt_iff_toNat_lt] at hge
    rw [Except.wp_pure, Ctl.post_done, show idx.toNat = count.toNat by omega]

/-- Between two encodings the call does not return `false`. -/
theorem appendStringToStringNTimes_true (henc : src.enc ≠ dst.enc) {r : Bool × String × Mem}
    (h : appendStringToStringNTimes src count dst m = .ok r) : r.1 = true := by
  rw [appendStringToStringNTimes, if_neg henc] at h
  refine of_whileLoop_ok (Q := fun r => r.1 = true) (fun _ => True) ?_ trivial h
  rintro ⟨idx, dst, m⟩ c - hc
  dsimp only at hc
  split_ifs at hc
  · rw [Except.bind_eq_ok] at hc
    obtain ⟨r, -, hc⟩ := hc
    cases hc
    trivial
  · cases hc
    rfl

theorem appendsCopies_iff (hsrc : SourceOf m src dst f) (hdst : Writable m dst)
    (henc : src.enc ≠ dst.enc) {bs : List UInt8}
    (hbs : bs = transcoded src.enc dst.enc f src.writeCur.toNat) :
    Appends (appendStringToStringNTimes src count dst m) dst m
      (List.replicate count.toNat bs).flatten ↔ count.toNat * bs.length ≤ dst.room := by
  refine ⟨fun h => Nat.le_of_not_lt fun hlt => ?_, fun hfits => ?_⟩
  · obtain ⟨out, -, hrun⟩ := h.of_lt (by rw [length_copies]; exact hlt)
    have htrue := appendStringToStringNTimes_true henc hrun
    cases htrue
  · rw [Appends, appendStringToStringNTimes_of_fits hsrc hdst henc hbs hfits, Except.wp_ok]
    have happ :=
      @Appended.of_le m dst (List.replicate count.toNat bs).flatten (by rwa [length_copies])
    rwa [length_copies] at happ

end

/-- `AppendStringToStringNTimes` between two encodings appends all copies or none exactly when all
of them fit: of any source what is transcoded from it, of a well-formed text the same text in the
encoding of the destination. -/
theorem appendStringToStringNTimes_iff (src dst : String) (count : Usz)
    (m : Mem) (hdst : Writable m dst) (henc : src.enc ≠ dst.enc) :
    (∀ f, SourceOf m src dst f →
      (Appends (appendStringToStringNTimes src count dst m) dst m
        (List.replicate count.toNat (transcoded src.enc dst.enc f src.writeCur.toNat)).flatten ↔
        count.toNat * (transcoded src.enc dst.enc f src.writeCur.toNat).length ≤ dst.room)) ∧
    ∀ F G cs, HoldsText m src F cs → dst.enc = encodingOf G →
      Apart src.base src.writeCur.toNat (dst.base + dst.writeCur) dst.room →
      (Appends (appendStringToStringNTimes src count dst m) dst m
        (List.replicate count.toNat (G.encode cs)).flatten ↔
        count.toNat * (G.encode cs).length ≤ dst.room) := by
  refine ⟨fun f hsrc => appendsCopies_iff hsrc hdst henc rfl, fun F G cs hsrc hG hapart => ?_⟩
  refine appendsCopies_iff (hsrc.sourceOf hapart) hdst henc ?_
  rw [hsrc.enc, hG, hsrc.len, transcoded_encode]

theorem euroSrc_ready : HoldsText euroMem euroSrc .utf8 euroText ∧ Writable euroMem euroDst ∧
    Apart euroSrc.base euroSrc.writeCur.toNat (euroDst.base + euroDst.writeCur) euroDst.room :=
  ⟨⟨rfl, by decide, Mem.holds_store fun _ _ => rfl⟩, ⟨by decide, by decide, fun _ _ => rfl⟩,
    apart_of_le (by decide) (by decide)⟩

/-- A destination with room for three copies. -/
def euroLong : String := { euroDst with size := 20 }

/-- Into eighteen bytes the text goes three times, and not four times. -/
theorem appendStringToStringNTimes_three :
    Appends (appendStringToStringNTimes euroSrc 3 euroLong euroMem) euroLong euroMem
        (List.replicate 3 (Form.utf16be.encode euroText)).flatten ∧
      ¬ Appends (appendStringToStringNTimes euroSrc 4 euroLong euroMem) euroLong euroMem
        (List.replicate 4 (Form.utf16be.encode euroText)).flatten := by
  have hdst : Writable euroMem euroLong := ⟨by decide, by decide, fun _ _ => rfl⟩
  have hiff := fun count : Usz =>
    (appendStringToStringNTimes_iff euroSrc euroLong count euroMem hdst (by decide)).2 .utf8
      .utf16be euroText euroSrc_ready.1 rfl (apart_of_le (by decide) (by decide))
  exact ⟨(hiff 3).2 (by decide), fun h => absurd ((hiff 4).1 h) (by decide)⟩

/-- Of two copies the first is written and kept, and the answer is `true`. -/
theorem appendStringToStringNTimes_two :
    ¬ Appends (appendStringToStringNTimes euroSrc 2 euroDst euroMem) euroDst euroMem
      (List.replicate 2 (Form.utf16be.encode euroText)).flatten := by
  obtain ⟨hsrc, hdst, hapart⟩ := euroSrc_ready
  intro h
  obtain ⟨out, -, hrun⟩ := h.of_lt (by decide)
  have htrue := appendStringToStringNTimes_true (by decide) hrun
  cases htrue

end TinyBase
