import TinyBase.StringSpec

/-!
# Transcoding (`_Transcode`, `_TranscodeUTF16BE`, `_TranscodeUTF32BE`)

`transcoded E D f n`: what the loops produce from the `n` bytes `f` in `E`, any bytes, for a
destination in `D`. The loop invariant `TranscodeInv` splits it at the current source index into
what has been stored and what is still to come.
-/

namespace TinyBase
open Unicode

/-- The bytes produced from the `n` bytes `f`. -/
def transcoded (E D : Encoding) (f : Nat → UInt8) (n : Nat) : List UInt8 :=
  (chars E f n).flatMap fun char => charBytes (encodeChar (decodeChar char E) D) D

/-- What a transcoding loop needs of its source: the bytes it reads are `f`, and it does not
overwrite them. -/
structure SourceOf (m : Mem) (src dst : String) (f : Nat → UInt8) : Prop where
  reads : Reads m.read src.base (readEnd src.enc f src.writeCur.toNat) f
  apart : Apart src.base (readEnd src.enc f src.writeCur.toNat) (dst.base + dst.writeCur) dst.room
  readFits : readEnd src.enc f src.writeCur.toNat ≤ 2 ^ 64
  walkFits : walkEnd src.enc f src.writeCur.toNat < 2 ^ 64

section
variable {m : Mem} {src dst : String} {f : Nat → UInt8}

/-- A transcoding loop at index `k` of its source, having stored `out`. -/
structure TranscodeInv (m : Mem) (src dst : String) (f : Nat → UInt8)
    (st : TranscodeState) (out : List UInt8) : Prop where
  dst_eq : st.dst = dst.grown out.length
  m_eq : st.m = m.store (dst.base + dst.writeCur) out
  fits : out.length ≤ dst.room
  produced : transcoded src.enc dst.enc f src.writeCur.toNat =
    out ++ transcoded src.enc dst.enc (shift f st.srcIdx.toNat)
    (src.writeCur.toNat - st.srcIdx.toNat)
  reads : st.srcIdx.toNat + readEnd src.enc (shift f st.srcIdx.toNat)
    (src.writeCur.toNat - st.srcIdx.toNat) ≤
    readEnd src.enc f src.writeCur.toNat
  walks : st.srcIdx.toNat + walkEnd src.enc (shift f st.srcIdx.toNat)
    (src.writeCur.toNat - st.srcIdx.toNat) ≤
    walkEnd src.enc f src.writeCur.toNat

namespace TranscodeInv
variable {st : TranscodeState} {out : List UInt8}

theorem init : TranscodeInv m src dst f ⟨0, dst, m⟩ [] where
  dst_eq := by simp
  m_eq := by simp
  fits := Nat.zero_le _
  produced := by simp
  reads := by simp
  walks := by simp

/-- `GetNextChar` at the current index. -/
theorem getNextChar_eq (h : TranscodeInv m src dst f st out) (hsrc : SourceOf m src dst f)
    (hlt : st.srcIdx.toNat < src.writeCur.toNat) :
    getNextChar st.m.read (src.base + st.srcIdx) src.enc =
      .ok (nextChar (shift f st.srcIdx.toNat) src.enc) := by
  have hend := h.reads
  rw [readEnd_of_pos (by omega)] at hend
  have hfits := hsrc.readFits
  refine TinyBase.getNextChar_eq ?_
  rw [h.m_eq]
  exact (Mem.reads_store hsrc.reads hsrc.apart h.fits).shift st.srcIdx (by omega) (by omega)

/-- The bytes the current character gives, and the rest. -/
theorem produced_cons (h : TranscodeInv m src dst f st out)
    (hlt : st.srcIdx.toNat < src.writeCur.toNat) :
    transcoded src.enc dst.enc f src.writeCur.toNat =
      (out ++ charBytes (encodeChar
        (decodeChar (nextChar (shift f st.srcIdx.toNat) src.enc) src.enc) dst.enc) dst.enc) ++
        transcoded src.enc dst.enc
          (shift f (st.srcIdx.toNat + stepSize src.enc (shift f st.srcIdx.toNat)))
          (src.writeCur.toNat -
            (st.srcIdx.toNat + stepSize src.enc (shift f st.srcIdx.toNat))) := by
  rw [h.produced, transcoded, chars_of_pos (by omega), List.flatMap_cons, shift_shift,
    Nat.sub_sub, List.append_assoc]
  rfl

theorem next (h : TranscodeInv m src dst f st out) (hdst : Writable m dst)
    (hsrc : SourceOf m src dst f) (hlt : st.srcIdx.toNat < src.writeCur.toNat) {bs : List UInt8}
    (hbs : bs = charBytes (encodeChar
      (decodeChar (nextChar (shift f st.srcIdx.toNat) src.enc) src.enc) dst.enc) dst.enc)
    (hfits : out.length + bs.length ≤ dst.room) :
    st.m.writeBytes (st.dst.base + st.dst.writeCur) bs =
      .ok (m.store (dst.base + dst.writeCur) (out ++ bs)) ∧
      ∃ idx, st.srcIdx + (getMultibyteCharSize
          (nextChar (shift f st.srcIdx.toNat) src.enc) src.enc).toUInt64 = idx ∧
        st.srcIdx.toNat < idx.toNat ∧
        TranscodeInv m src dst f ⟨idx, dst.grown (out ++ bs).length,
          m.store (dst.base + dst.writeCur) (out ++ bs)⟩ (out ++ bs) := by
  have hroom := hdst.room_eq
  have hsmall := hdst.small
  constructor
  · have hleft : bs.length ≤ (dst.grown out.length).room := by
      rw [String.room, hdst.toNat_grown h.fits]; show _ ≤ dst.size.toNat - _; omega
    have hw := (hdst.grown h.fits st.m (by rw [h.m_eq]; rfl)).writeBytes hleft
    rw [h.dst_eq, hw, h.m_eq, hdst.store_grown hfits]
  · have hstep := stepSize_le src.enc (shift f st.srcIdx.toNat)
    have hread := h.reads
    have hwalk := h.walks
    have hwalk64 := hsrc.walkFits
    rw [readEnd_of_pos (by omega), shift_shift, Nat.sub_sub] at hread
    rw [walkEnd_of_pos (by omega), shift_shift, Nat.sub_sub] at hwalk
    have hidx :
        (st.srcIdx + (getMultibyteCharSize (nextChar (shift f st.srcIdx.toNat) src.enc)
          src.enc).toUInt64).toNat =
        st.srcIdx.toNat + stepSize src.enc (shift f st.srcIdx.toNat) := by
      rw [UInt64.toNat_add, UInt32.toNat_toUInt64]
      exact Nat.mod_eq_of_lt (by show st.srcIdx.toNat + stepSize _ _ < _; omega)
    refine ⟨_, rfl, by omega, ⟨rfl, rfl, by rw [List.length_append]; exact hfits, ?_, ?_, ?_⟩⟩
    · dsimp only
      rw [hidx, hbs]
      exact h.produced_cons hlt
    · dsimp only
      rw [hidx]
      omega
    · dsimp only
      rw [hidx]
      omega

end TranscodeInv

/-- A loop that stores the bytes of its characters appends what it produces, or nothing. -/
theorem wp_transcodeStep (hdst : Writable m dst) (hsrc : SourceOf m src dst f)
    {encodedSizeOf : MbChar → UInt32} {stored : MbChar → UInt32 → List UInt8}
    (hsize : ∀ x, encodedSizeOf x = getMultibyteCharSize x dst.enc)
    (hstored : ∀ x, stored x (getMultibyteCharSize x dst.enc) = charBytes x dst.enc) :
    Appends (whileLoop (transcodeStep encodedSizeOf stored src dst.writeCur) ⟨0, dst, m⟩) dst m
      (transcoded src.enc dst.enc f src.writeCur.toNat) := by
  refine wp_whileLoop (fun st => ∃ out, TranscodeInv m src dst f st out)
    (fun st => src.writeCur.toNat - st.srcIdx.toNat) ?_ _ ⟨[], TranscodeInv.init⟩
    (Nat.lt_of_le_of_lt (Nat.sub_le _ _) src.writeCur.toNat_lt)
  rintro st ⟨out, h⟩
  have hroom := hdst.room_eq
  have hsmall := hdst.small
  rw [transcodeStep, Except.wp_ite]
  refine ⟨fun hlt => ?_, fun hge => ?_⟩
  · have hlt' := UInt64.lt_iff_toNat_lt.1 hlt
    rw [h.getNextChar_eq hsrc hlt', Except.ok_bind]
    simp only [h.dst_eq, String.grown_enc, hsize, hstored]
    -- the character read from the source, and its encoding
    generalize hx :
      encodeChar (decodeChar (nextChar (shift f st.srcIdx.toNat) src.enc) src.enc) dst.enc = encoded
    have hbytes := getMultibyteCharSize_le encoded dst.enc
    have hsum :
        ((dst.grown out.length).writeCur + (getMultibyteCharSize encoded dst.enc).toUInt64).toNat =
        dst.writeCur.toNat + out.length + (charBytes encoded dst.enc).length := by
      have := h.fits
      rw [UInt64.toNat_add, hdst.toNat_grown h.fits, UInt32.toNat_toUInt64, length_charBytes]
      exact Nat.mod_eq_of_lt (by omega)
    rw [Except.wp_ite, String.grown_size, UInt64.le_iff_toNat_le, hsum]
    refine ⟨fun hfits => ?_, fun hfull => ?_⟩
    · obtain ⟨hwrite, idx, hidx, hmove, hnext⟩ :=
        h.next hdst hsrc hlt' (congrArg (charBytes · dst.enc) hx.symm) (by omega)
      rw [h.dst_eq] at hwrite
      rw [hwrite, Except.ok_bind, Except.wp_pure, hidx]
      have hgrown : ({ dst.grown out.length with
          writeCur := (dst.grown out.length).writeCur +
            (getMultibyteCharSize encoded dst.enc).toUInt64 } : String) =
          dst.grown (out ++ charBytes encoded dst.enc).length := by
        simp only [String.grown, List.length_append, length_charBytes,
          UInt64.ofNat_add, UInt64.ofNat_uInt32ToNat, UInt64.add_assoc]
      rw [← hgrown] at hnext
      exact ⟨⟨_, hnext⟩, show src.writeCur.toNat - idx.toNat < _ by omega⟩
    · rw [Except.wp_pure, Ctl.post_done, h.m_eq]
      refine Appended.of_lt ?_ h.fits
      rw [h.produced_cons hlt', hx]
      simp only [List.length_append]
      omega
  · have hge' : src.writeCur.toNat - st.srcIdx.toNat = 0 := by
      rw [UInt64.lt_iff_toNat_lt] at hge; omega
    have hout : transcoded src.enc dst.enc f src.writeCur.toNat = out := by
      rw [h.produced, hge']; simp [transcoded]
    rw [Except.wp_pure, Ctl.post_done, h.m_eq, h.dst_eq, ← hout]
    exact Appended.of_le (by rw [hout]; exact h.fits)

theorem srcByte_eq (x : MbChar) {i : Nat} (hi : i < 4) :
    srcByte x i = UInt8.ofNat (x.toNat / 256 ^ i % 256) := by
  rw [srcByte, getD_leBytes hi]
  apply UInt8.toNat_inj.1
  rw [UInt8.toNat_ofNat', UInt8.toNat_ofNat', Nat.mod_mod]

theorem leBytes_eq_srcByte (x : MbChar) {n : Nat} (hn : n ≤ 4) :
    leBytes n x.toNat = (List.range n).map (srcByte x) := by
  refine List.map_congr_left fun i hi => ?_
  rw [List.mem_range] at hi
  exact (getD_leBytes (by omega)).symm

/-- The swapped pairs of `_TranscodeUTF16BE` are the bytes of the flipped word. -/
theorem leBytes_flipEndian16x2 (x : MbChar) : leBytes 4 (flipEndian16x2 x).toNat =
    [srcByte x 1, srcByte x 0, srcByte x 3, srcByte x 2] := by
  have hlt := x.toNat_lt
  rw [toNat_flipEndian16x2, leBytes_four (by omega) (by omega) (by omega) (by omega),
    srcByte_eq x (by decide),
    srcByte_eq x (by decide), srcByte_eq x (by decide), srcByte_eq x (by decide)]
  simp only [Nat.reducePow, Nat.div_one]
  rw [Nat.mod_eq_of_lt (a := x.toNat / 16777216) (by omega)]

/-- The reversed bytes of `_TranscodeUTF32BE` are the bytes of the flipped word. -/
theorem leBytes_flipEndian32 (x : MbChar) : leBytes 4 (flipEndian32 x).toNat =
    [srcByte x 3, srcByte x 2, srcByte x 1, srcByte x 0] := by
  have hlt := x.toNat_lt
  rw [toNat_flipEndian32, leBytes_four (by omega) (by omega) (by omega) (by omega),
    srcByte_eq x (by decide),
    srcByte_eq x (by decide), srcByte_eq x (by decide), srcByte_eq x (by decide)]
  simp only [Nat.reducePow, Nat.div_one]
  rw [Nat.mod_eq_of_lt (a := x.toNat / 16777216) (by omega)]

theorem take_leBytes {n k : Nat} (hk : k ≤ n) (v : Nat) : (leBytes n v).take k = leBytes k v := by
  rw [leBytes, ← List.map_take, List.take_range, Nat.min_eq_left hk, leBytes]

theorem transcodeHostOrder_stored (x : MbChar) {D : Encoding}
    (h16 : D ≠ .utf16be) (h32 : D ≠ .utf32be) : (fun (encoded : MbChar) (size : UInt32) =>
      let b := srcByte encoded
      if size = 1 then [b 0] else if size = 2 then [b 0, b 1] else if size = 3 then [b 0, b 1, b 2]
      else if size = 4 then [b 0, b 1, b 2, b 3]
        else []) x (getMultibyteCharSize x D) = charBytes x D := by
  have hadjust : adjustEndianness x D = x := by
    cases D with
    | utf16be => exact absurd rfl h16
    | utf32be => exact absurd rfl h32
    | _ => rfl
  have hsize := getMultibyteCharSize_le x D
  rw [charBytes, hadjust, leBytes_eq_srcByte x hsize.2]
  generalize getMultibyteCharSize x D = size at hsize ⊢
  obtain h | h | h | h : size.toNat = 1 ∨ size.toNat = 2 ∨ size.toNat = 3 ∨ size.toNat = 4 := by
    omega
  all_goals simp [← UInt32.toNat_inj, h, List.range_succ]

theorem transcodeUTF16BE_stored (x : MbChar) :
    (fun (encoded : MbChar) (size : UInt32) =>
      let b := srcByte encoded
      if size = 2 then [b 1, b 0] else if size = 4 then [b 1, b 0, b 3, b 2] else []) x
        (getMultibyteCharSize x .utf16be) = charBytes x .utf16be := by
  have htake := leBytes_flipEndian16x2 x
  rw [charBytes, ← take_leBytes (getMultibyteCharSize_le x .utf16be).2]
  show _ = (leBytes 4 (flipEndian16x2 x).toNat).take _
  rw [htake]
  simp only [getMultibyteCharSize]
  by_cases hx : x ≤ 0xFFFF
  · simp only [if_pos hx]; rfl
  · simp only [if_neg hx]; rfl

/-- The three loops are one: each stores the bytes of its characters. -/
theorem transcode_eq (src dst : String) (m : Mem) : ∃ (encodedSizeOf : MbChar → UInt32)
    (stored : MbChar → UInt32 → List UInt8),
    (∀ x, encodedSizeOf x = getMultibyteCharSize x dst.enc) ∧
      (∀ x, stored x (getMultibyteCharSize x dst.enc) = charBytes x dst.enc) ∧
      transcode src dst m = whileLoop (transcodeStep encodedSizeOf stored src dst.writeCur)
        ⟨0, dst, m⟩ := by
  rw [transcode]
  split
  · next h => exact ⟨_, _, fun _ => rfl, fun x => h ▸ transcodeUTF16BE_stored x, rfl⟩
  · next h => exact ⟨_, _, fun _ => h ▸ rfl, fun x => h ▸ (leBytes_flipEndian32 x).symm, rfl⟩
  · next h16 h32 => exact ⟨_, _, fun _ => rfl, fun x => transcodeHostOrder_stored x h16 h32, rfl⟩

/-- `Transcode` appends what it produces, or nothing. -/
theorem transcode_spec (hdst : Writable m dst) (hsrc : SourceOf m src dst f) :
    Appends (transcode src dst m) dst m (transcoded src.enc dst.enc f src.writeCur.toNat) := by
  obtain ⟨encodedSizeOf, stored, hsize, hstored, heq⟩ := transcode_eq src dst m
  rw [heq]
  exact wp_transcodeStep hdst hsrc hsize hstored

/-- `Transcode` writes nowhere but in the destination. -/
theorem transcode_frame {r : Bool} {dst' : String} {m' : Mem}
    (hcur : dst.writeCur.toNat ≤ dst.size.toNat) (hsmall : dst.size.toNat + 4 < 2 ^ 64)
    (h : transcode src dst m = .ok (r, dst', m')) :
    dst'.enc = dst.enc ∧ ∀ a, ¬ InRange dst.base dst.size.toNat a → m'.byte a = m.byte a := by
  obtain ⟨encodedSizeOf, stored, hsize, hstored, heq⟩ := transcode_eq src dst m
  rw [heq] at h
  refine of_whileLoop_ok (Q := fun res => res.2.1.enc = dst.enc ∧
    ∀ a, ¬ InRange dst.base dst.size.toNat a →
      res.2.2.byte a = m.byte a) (fun st => st.dst.base = dst.base ∧
      st.dst.size = dst.size ∧ st.dst.enc = dst.enc ∧
      st.dst.writeCur.toNat ≤ dst.size.toNat ∧ ∀ a, ¬ InRange dst.base dst.size.toNat a →
      st.m.byte a = m.byte a)
    ?_ ⟨rfl, rfl, rfl, hcur, fun _ _ => rfl⟩ h
  rintro st c ⟨hbase, hsz, henc, hle, hframe⟩ hc
  rw [transcodeStep] at hc
  split_ifs at hc with hlt
  · rw [Except.bind_eq_ok] at hc
    obtain ⟨char, -, hc⟩ := hc
    simp only [henc, hsize, hstored, hsz] at hc
    generalize encodeChar (decodeChar char src.enc) dst.enc = encoded at hc
    have hbytes := getMultibyteCharSize_le encoded dst.enc
    split_ifs at hc with hfits
    · rw [Except.bind_eq_ok] at hc
      obtain ⟨m1, hwrite, hc⟩ := hc
      cases hc
      have hsum : (st.dst.writeCur + (getMultibyteCharSize encoded dst.enc).toUInt64).toNat =
          st.dst.writeCur.toNat + (getMultibyteCharSize encoded dst.enc).toNat := by
        rw [UInt64.toNat_add, UInt32.toNat_toUInt64]
        exact Nat.mod_eq_of_lt (by omega)
      rw [UInt64.le_iff_toNat_le, hsum] at hfits
      refine ⟨hbase, rfl, rfl, hsum ▸ hfits, fun a ha => ?_⟩
      rw [Mem.eq_of_writeBytes (by rw [length_charBytes]; omega) hwrite,
        Mem.store_byte_of_not_inRange]
      · exact hframe a ha
      · rw [hbase, length_charBytes]
        exact fun hin => ha (hin.of_add hfits)
    · cases hc
      exact ⟨rfl, hframe⟩
  · cases hc
    exact ⟨henc, hframe⟩

/-! ### Well-formed sources -/

/-- `s` holds the list `cs` in the encoding scheme `F`, and nothing else. -/
structure HoldsText (m : Mem) (s : String) (F : Form) (cs : List Char) : Prop where
  enc : s.enc = encodingOf F
  len : s.writeCur.toNat = (F.encode cs).length
  bytes : Holds m.read s.base (F.encode cs)

theorem charBytes_packed (F G : Form) (c : Char) :
    charBytes (encodeChar (decodeChar (packed F c) (encodingOf F)) (encodingOf G)) (encodingOf G) =
      G.bytes c := by
  rw [decodeChar_packed, bytes_eq, packed]

/-- A list in one scheme gives the list in the other. -/
theorem transcoded_encode (F G : Form) (cs : List Char) :
    transcoded (encodingOf F) (encodingOf G) ((F.encode cs).getD · 0) (F.encode cs).length =
      G.encode cs := by
  rw [transcoded, chars_encode]
  simp only [List.flatMap_map, charBytes_packed, Form.encode]

theorem HoldsText.sourceOf {F : Form} {cs : List Char} (h : HoldsText m src F cs)
    (hapart : Apart src.base src.writeCur.toNat (dst.base + dst.writeCur) dst.room) :
    SourceOf m src dst ((F.encode cs).getD · 0) := by
  have hlt := src.writeCur.toNat_lt
  have hread :
      readEnd src.enc ((F.encode cs).getD · 0) src.writeCur.toNat = src.writeCur.toNat := by
    rw [h.enc, h.len, readEnd_encode]
  have hwalk :
      walkEnd src.enc ((F.encode cs).getD · 0) src.writeCur.toNat = src.writeCur.toNat := by
    rw [h.enc, h.len, walkEnd_encode]
  refine ⟨?_, by rw [hread]; exact hapart, by rw [hread]; exact Nat.le_of_lt hlt,
    by rw [hwalk]; exact hlt⟩
  rw [hread, h.len]
  exact h.bytes

theorem transcode_text_spec {F G : Form} {cs : List Char} (hsrc : HoldsText m src F cs)
    (hdst : Writable m dst) (henc : dst.enc = encodingOf G)
    (hapart : Apart src.base src.writeCur.toNat (dst.base + dst.writeCur) dst.room) :
    Appends (transcode src dst m) dst m (G.encode cs) := by
  have h := transcode_spec hdst (hsrc.sourceOf hapart)
  rwa [hsrc.enc, hsrc.len, henc, transcoded_encode] at h

/-- The part of `dst` that an append of `n` bytes writes, as a string. -/
def appendedPart (dst : String) (n : Nat) : String :=
  { base := dst.base + dst.writeCur, writeCur := UInt64.ofNat n, size := 0, enc := dst.enc }

theorem holdsText_appendedPart {G : Form} {cs : List Char} (hdst : Writable m dst)
    (henc : dst.enc = encodingOf G) (hfits : (G.encode cs).length ≤ dst.room)
    (hread : m.Readable (dst.base + dst.writeCur) dst.room) :
    HoldsText (m.store (dst.base + dst.writeCur) (G.encode cs))
      (appendedPart dst (G.encode cs).length) G cs := by
  have hroom := hdst.room_eq
  have hsmall := hdst.small
  refine ⟨henc, ?_, Mem.holds_store fun i hi => hread i (by omega)⟩
  show (UInt64.ofNat _).toNat = _
  rw [UInt64.toNat_ofNat']
  exact Nat.mod_eq_of_lt (by omega)

end

/-- `Transcode` between two encoding schemes appends the list in the scheme of the destination, or
nothing if it does not fit; back in the first scheme, it gives the bytes there were. -/
theorem transcode_text (F G : Form) (cs : List Char) (m : Mem) (src dst : String)
    (hsrc : HoldsText m src F cs) (hdst : Writable m dst) (henc : dst.enc = encodingOf G)
    (hapart : Apart src.base src.writeCur.toNat (dst.base + dst.writeCur) dst.room) :
    (if (G.encode cs).length ≤ dst.room then
      transcode src dst m =
        .ok (true, dst.grown (G.encode cs).length, m.store (dst.base + dst.writeCur) (G.encode cs))
    else ∃ m', transcode src dst m = .ok (false, dst, m') ∧
      ∀ a, ¬ InRange (dst.base + dst.writeCur) dst.room a → m'.byte a = m.byte a) ∧
    ∀ back : String, back.enc = encodingOf F → Writable m back →
      Apart (dst.base + dst.writeCur) dst.room (back.base + back.writeCur) back.room →
      m.Readable (dst.base + dst.writeCur) dst.room → (G.encode cs).length ≤ dst.room →
      (F.encode cs).length ≤ back.room →
      ∃ m', transcode src dst m = .ok (true, dst.grown (G.encode cs).length, m') ∧
        transcode (appendedPart dst (G.encode cs).length) back m' =
          .ok (true, back.grown (F.encode cs).length,
            m'.store (back.base + back.writeCur) (F.encode cs)) := by
  have happ := transcode_text_spec hsrc hdst henc hapart
  refine ⟨?_, fun back hback hwback hapart' hread hfits hfits' => ?_⟩
  · split_ifs with hfits
    · exact happ.of_le hfits
    · obtain ⟨out, hout, hrun⟩ := happ.of_lt (Nat.not_le.1 hfits)
      exact ⟨_, hrun, fun a ha => Mem.store_byte_of_not_inRange fun hin =>
        ha (Nat.lt_of_lt_of_le hin hout)⟩
  · have hroom := hdst.room_eq
    have hsmall := hdst.small
    have hmid := holdsText_appendedPart hdst henc hfits hread
    have hmidlen : (appendedPart dst (G.encode cs).length).writeCur.toNat ≤ dst.room := by
      rw [hmid.len]; exact hfits
    have hwback' : Writable (m.store (dst.base + dst.writeCur) (G.encode cs)) back := by
      simpa using hwback.grown (Nat.zero_le _) (m.store (dst.base + dst.writeCur) (G.encode cs)) rfl
    refine ⟨_, happ.of_le hfits,
      (transcode_text_spec hmid hwback' hback fun a ha => ?_).of_le hfits'⟩
    exact hapart' a (Nat.lt_of_lt_of_le ha hmidlen)

/-! A character of three UTF-8 bytes and one of four, to UTF-16BE behind two bytes already
written. -/

def euroText : List Char := ['€', '😀']

def euroMem : Mem :=
  (⟨fun _ => 0, fun _ => true, fun _ => true⟩ : Mem).store 16 (Form.utf8.encode euroText)

def euroSrc : String := { base := 16, writeCur := 7, size := 7, enc := .utf8 }

def euroDst : String := { base := 64, writeCur := 2, size := 10, enc := .utf16be }

theorem transcode_text_euro : transcode euroSrc euroDst euroMem =
    .ok (true, euroDst.grown 6, euroMem.store 66 (Form.utf16be.encode euroText)) := by
  have hsrc : HoldsText euroMem euroSrc .utf8 euroText :=
    ⟨rfl, by decide, Mem.holds_store fun _ _ => rfl⟩
  have hdst : Writable euroMem euroDst := ⟨by decide, by decide, fun _ _ => rfl⟩
  have h := (transcode_text .utf8 .utf16be euroText euroMem euroSrc euroDst hsrc hdst rfl
    (apart_of_le (by decide) (by decide))).1
  rwa [if_pos (by decide)] at h

end TinyBase
