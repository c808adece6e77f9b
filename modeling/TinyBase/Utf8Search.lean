import TinyBase.CharByChar
import TinyBase.Lib.PrefixCode
import TinyBase.Query

/-!
# Searching UTF-8 text

The searches compare bytes. In UTF-8 the first byte of a character is not a continuation byte, and
the bytes behind it are, so the bytes of a text occur in another only where its characters do.
-/

namespace TinyBase
open Unicode Code

/-- The bytes of a scalar value are not the beginning of those of another. -/
theorem prefixFree_bytes (F : Form) : PrefixFree F.bytes where
  ne_nil c h := by
    have := length_bytes_pos F c
    rw [h] at this
    exact absurd this (lt_irrefl 0)
  eq_of_prefix c d h := by
    have hd : nextChar ((F.bytes d).getD · 0) (encodingOf F) = packed F d :=
      nextChar_packed fun i _ => rfl
    have hc : nextChar ((F.bytes d).getD · 0) (encodingOf F) = packed F c := by
      refine nextChar_packed fun i hi => ?_
      obtain ⟨t, ht⟩ := h
      rw [← ht, getD_append_left hi]
    have hval : c.val = d.val := by rw [← decodeChar_packed F c, ← decodeChar_packed F d, ← hc, hd]
    exact Char.ext hval

/-- A byte that begins a character: no continuation byte `10xxxxxx`. -/
def Lead (b : UInt8) : Prop := b.toNat / 64 ≠ 2

theorem synchronising_utf8 : Synchronising Form.utf8.bytes Lead where
  toPrefixFree := prefixFree_bytes .utf8
  split c := by
    have hv := scalar_lt c
    show ∃ u us, String.utf8EncodeChar c = u :: us ∧ _
    simp only [String.utf8EncodeChar]
    generalize c.val.toNat = v at hv
    split_ifs with h1 h2 h3
    · refine ⟨_, _, rfl, ?_, by simp⟩
      simp [Lead]; omega
    · refine ⟨_, _, rfl, ?_, ?_⟩ <;> simp [Lead] <;> omega
    · refine ⟨_, _, rfl, ?_, ?_⟩ <;> simp [Lead] <;> omega
    · refine ⟨_, _, rfl, ?_, ?_⟩ <;> simp [Lead] <;> omega

/-- The offset of the first (in reverse, the last) position of the list `cs` at which the list `ns`
stands, or `INVALID_IDX` if it does not. -/
def IsCharOffset (reverse : Bool) (F : Form) (ns cs : List Char) (r : Usz) : Prop :=
  (∃ k, r.toNat = (F.encode (cs.take k)).length ∧
    if reverse then Greatest (fun k => ns <+: cs.drop k) cs.length k
      else Least (fun k => ns <+: cs.drop k) cs.length k) ∨
  (r = invalidIdx ∧ NoneBelow (fun k => ns <+: cs.drop k) cs.length)

section
variable {F : Form} {lead : UInt8 → Prop} {ns cs : List Char} {r : Usz}

/-- In a synchronising encoding, what is found among the bytes is what is found among the
characters. -/
theorem IsFound.isCharOffset (hcode : Synchronising F.bytes lead) (hns : ns ≠ []) {reverse : Bool}
    (h : IsFound reverse (F.encode ns) (F.encode cs) r) : IsCharOffset reverse F ns cs r := by
  have hmono : ∀ j k, j < k → k < cs.length → offset F.bytes cs j < offset F.bytes cs k :=
    fun j k hjk hk =>
    hcode.offset_lt hjk (Nat.le_of_lt hk)
  have hbyte : ∀ k < cs.length, ns <+: cs.drop k →
      offset F.bytes cs k < (F.encode cs).length + 1 - (F.encode ns).length ∧
      F.encode ns <+: (F.encode cs).drop (offset F.bytes cs k) := fun k _ hk => by
    refine ⟨?_, hcode.prefix_drop_offset_iff.2 hk⟩
    have hle : offset F.bytes cs k + (F.encode ns).length ≤ (F.encode cs).length :=
      hcode.offset_add_le hk
    omega
  have hchar : ∀ i < (F.encode cs).length + 1 - (F.encode ns).length,
      F.encode ns <+: (F.encode cs).drop i →
      ∃ k < cs.length, i = offset F.bytes cs k ∧ ns <+: cs.drop k :=
        fun i _ hi => (hcode.prefix_drop_iff hns).1 hi
  cases reverse with
  | false =>
    rcases h with hfound | ⟨hr, hnone⟩
    · obtain ⟨k, hk, hleast⟩ := hfound.of_image hmono hbyte hchar
      exact .inl ⟨k, hk, hleast⟩
    · exact .inr ⟨hr, hnone.of_image hbyte⟩
  | true =>
    rcases h with hfound | ⟨hr, hnone⟩
    · obtain ⟨k, hk, hgreatest⟩ := hfound.of_image hmono hbyte hchar
      exact .inl ⟨k, hk, hgreatest⟩
    · exact .inr ⟨hr, hnone.of_image hbyte⟩

theorem needleBytes_utf8 (c : Char) :
    needleBytes (encodeChar c.val .utf8) .utf8 = Form.utf8.encode [c] := by
  rw [Form.encode_cons, Form.encode_nil, List.append_nil, bytes_utf8]
  rfl

end

section
variable {ns cs : List Char} {m : Mem} {needle haystack : String}

theorem stringInString_utf8 (hhay : HoldsText m haystack .utf8 cs)
    (hneedle : HoldsText m needle .utf8 ns) (hns : ns ≠ []) (flags : UInt32) :
    (stringInString needle haystack flags m).wp fun r => ∃ idx,
      r = resultOf flags (haystack.toBuffer.view m) needle.writeCur idx ∧
      IsCharOffset (flags &&& searchReverse ≠ 0) .utf8 ns cs idx := by
  have hpos : 0 < (Form.utf8.encode ns).length := by
    obtain ⟨c, cs, rfl⟩ := List.exists_cons_of_ne_nil hns
    rw [Form.encode_cons, List.length_append]
    have := length_bytes_pos .utf8 c
    omega
  rw [stringInString, if_pos (by rw [hneedle.enc, hhay.enc])]
  refine (bufferInBuffer_spec hpos hneedle.bytes hneedle.len hhay.bytes hhay.len flags).mono ?_
  rintro r ⟨idx, hr, hidx⟩
  exact ⟨idx, hr, hidx.isCharOffset synchronising_utf8 hns⟩

theorem charInString_utf8 (hhay : HoldsText m haystack .utf8 cs) (c : Char) (flags : UInt32) :
    (charInString (encodeChar c.val .utf8) haystack flags m).wp fun r => ∃ idx,
      r = resultOf flags (haystack.toBuffer.view m)
      (getMultibyteCharSize (encodeChar c.val .utf8) .utf8).toUInt64 idx ∧
      IsCharOffset (flags &&& searchReverse ≠ 0) .utf8 [c] cs idx := by
  have henc : haystack.enc = .utf8 := hhay.enc
  have hspec := charInString_spec (encodeChar c.val .utf8) hhay.bytes hhay.len flags
  rw [henc, needleBytes_utf8] at hspec
  refine hspec.mono ?_
  rintro r ⟨idx, hr, hidx⟩
  exact ⟨idx, hr, hidx.isCharOffset synchronising_utf8 (List.cons_ne_nil c [])⟩

theorem countCharInString_utf8 (hhay : HoldsText m haystack .utf8 cs)
    (hmax : haystack.writeCur ≠ invalidIdx) (c : Char) :
    (countCharInString (encodeChar c.val .utf8) haystack m).wp fun r => r.toNat = cs.count c := by
  have henc : haystack.enc = .utf8 := hhay.enc
  have hspec := countCharInString_spec (encodeChar c.val .utf8) hhay.bytes hhay.len hmax
  rw [henc, needleBytes_utf8, Form.encode_cons, Form.encode_nil, List.append_nil] at hspec
  exact hspec.mono fun r hr => hr.unique (synchronising_utf8.mostHits_count c cs)

end

/-- With the portable search of bytes, searches in UTF-8 text return offsets of characters: of the
first or of the last occurrence. The characters counted are those of the text. -/
theorem utf8Search_chars (cs ns : List Char) (c : Char) (m : Mem) (haystack needle : String)
    (hhay : HoldsText m haystack .utf8 cs) (hneedle : HoldsText m needle .utf8 ns) (hns : ns ≠ []) :
    (stringInString needle haystack returnIdxFind m).wp (IsCharOffset false .utf8 ns cs) ∧
    (stringInString needle haystack (returnIdxFind ||| searchReverse) m).wp
      (IsCharOffset true .utf8 ns cs) ∧
    (charInString (encodeChar c.val .utf8) haystack returnIdxFind m).wp
      (IsCharOffset false .utf8 [c] cs) ∧
    (charInString (encodeChar c.val .utf8) haystack (returnIdxFind ||| searchReverse) m).wp
      (IsCharOffset true .utf8 [c] cs) ∧
    (haystack.writeCur ≠ invalidIdx →
      (countCharInString (encodeChar c.val .utf8) haystack m).wp fun r =>
      r.toNat = cs.count c) := by
  refine ⟨?_, ?_, ?_, ?_, fun hmax => countCharInString_utf8 hhay hmax c⟩
  · refine (stringInString_utf8 hhay hneedle hns _).mono ?_
    rintro _ ⟨idx, rfl, hidx⟩
    exact hidx
  · refine (stringInString_utf8 hhay hneedle hns _).mono ?_
    rintro _ ⟨idx, rfl, hidx⟩
    exact hidx
  · refine (charInString_utf8 hhay c _).mono ?_
    rintro _ ⟨idx, rfl, hidx⟩
    exact hidx
  · refine (charInString_utf8 hhay c _).mono ?_
    rintro _ ⟨idx, rfl, hidx⟩
    exact hidx

/-! The second character of `euroText`, as a string and as a character. -/

def emojiNeedle : String := { base := 19, writeCur := 4, size := 0, enc := .utf8 }

theorem utf8Search_chars_euro :
    (stringInString emojiNeedle euroSrc returnIdxFind euroMem).wp
      (IsCharOffset false .utf8 ['😀'] euroText) ∧
      (charInString 0x80989FF0 euroSrc (returnIdxFind ||| searchReverse) euroMem).wp
        (IsCharOffset true .utf8 ['😀'] euroText) ∧
      (countCharInString 0x80989FF0 euroSrc euroMem).wp fun r => r.toNat = 1 := by
  have hhay : HoldsText euroMem euroSrc .utf8 euroText :=
    ⟨rfl, by decide, Mem.holds_store fun _ _ => rfl⟩
  have hsplit : HoldsText euroMem euroSrc .utf8 (['€'] ++ ['😀']) := hhay
  have hidx : (3 : Usz).toNat = (Form.utf8.encode ['€']).length := by decide
  have hbase : emojiNeedle.base = euroSrc.base + 3 := by decide
  have hneedle : HoldsText euroMem emojiNeedle .utf8 ['😀'] :=
    ⟨rfl, by decide, by rw [hbase]; exact hsplit.reads_shift hidx⟩
  obtain ⟨h1, -, -, h4, h5⟩ :=
    utf8Search_chars euroText ['😀'] '😀' euroMem euroSrc emojiNeedle hhay hneedle (by decide)
  exact ⟨h1, h4, h5 (by decide)⟩

end TinyBase
