import TinyBase.Transcode

/-!
# Building and reading a string character by character

`AppendCharToString` stores a character with its bytes flipped in a word, the transcoding loops swap
the bytes as they store them, and `GetNextChar` puts a word together and flips it back. On lists of
scalar values all three agree.
-/

namespace TinyBase
open Unicode

/-- Appending `EncodeChar(c, Enc)` for each `c` of the list, as long as the calls succeed. -/
def appendChars : List Char → String → Mem → Res (Bool × String × Mem)
  | [], dst, m => pure (true, dst, m)
  | c :: cs, dst, m => do
    let (result, dst, m) ← appendCharToString (encodeChar c.val dst.enc) dst m
    if result then appendChars cs dst m else pure (result, dst, m)

/-- Walking over a string with `GetNextChar` and `GetNextCharSize`: the decoded characters, and the
index the walk ends at. -/
def walkString (s : String) (m : Mem) : Res (List UChar × Usz) :=
  whileLoop (fun (idx, decoded) =>
    if idx < s.writeCur then do
      let char ← getNextChar m.read (s.base + idx) s.enc
      let size ← getNextCharSize m.read (s.base + idx) s.enc
      pure (.next (idx + size.toUInt64, decoded ++ [decodeChar char s.enc]))
    else pure (.done (decoded, idx))) ((0 : Usz), [])

section
variable {F : Form} {m : Mem} {dst : String}

/-- Characters appended one by one are the encoding of their list. -/
theorem appendChars_eq (cs : List Char) (h : Writable m dst) (henc : dst.enc = encodingOf F)
    (hfits : (F.encode cs).length ≤ dst.room) : appendChars cs dst m =
      .ok (true, dst.grown (F.encode cs).length,
        m.store (dst.base + dst.writeCur) (F.encode cs)) := by
  induction cs generalizing dst m with
  | nil => simp [appendChars]; rfl
  | cons c cs ih =>
    have hroom := h.room_eq
    have hsmall := h.small
    rw [Form.encode_cons, List.length_append] at hfits
    have happ := (appendCharToString_spec h (encodeChar c.val dst.enc)).of_le (by
      rw [henc]; show (charBytes (packed F c) _).length ≤ _; rw [← bytes_eq]; omega)
    have hbytes : charBytes (encodeChar c.val dst.enc) dst.enc = F.bytes c := by
      rw [henc, bytes_eq]; rfl
    rw [hbytes] at happ
    have hlen : (F.bytes c).length ≤ dst.room := by omega
    have hgrown := h.grown hlen (m.store (dst.base + dst.writeCur) (F.bytes c)) rfl
    have hroom' : (dst.grown (F.bytes c).length).room = dst.room - (F.bytes c).length := by
      rw [String.room, h.toNat_grown hlen]; show dst.size.toNat - _ = _; omega
    rw [appendChars, happ, Except.ok_bind]
    simp only [if_true]
    rw [ih hgrown henc (by omega), String.grown_grown, h.store_grown hfits,
      Form.encode_cons, List.length_append]

/-- The bytes behind the encoding of `pre` are those of `post`. -/
theorem HoldsText.reads_shift {pre post : List Char}
    (h : HoldsText m dst F (pre ++ post)) {idx : Usz} (hidx : idx.toNat = (F.encode pre).length) :
    Reads m.read (dst.base + idx) (F.encode post).length ((F.encode post).getD · 0) := by
  have hlt := dst.writeCur.toNat_lt
  have hlen := h.len
  rw [Form.encode_append, List.length_append] at hlen
  have hshift := shift_getD_append (F.encode pre) (F.encode post)
  have hread : Reads m.read (dst.base + idx) (F.encode post).length
      (shift ((F.encode (pre ++ post)).getD · 0) idx.toNat) :=
    h.bytes.shift idx (by rw [Form.encode_append, List.length_append, hidx]) (by omega)
  rwa [hidx, Form.encode_append, hshift] at hread

/-- What is read behind the encoding of `pre`: the next character of the list, and its size. -/
theorem HoldsText.next {pre post : List Char} {c : Char} (h : HoldsText m dst F (pre ++ c :: post))
    {idx : Usz} (hidx : idx.toNat = (F.encode pre).length) :
    getNextChar m.read (dst.base + idx) dst.enc = .ok (packed F c) ∧
      ∃ size, getNextCharSize m.read (dst.base + idx) dst.enc = .ok size ∧
      size.toNat = (F.bytes c).length := by
  obtain ⟨hchar, hsize, -⟩ := walk_cons F c post
  have hread : Reads m.read (dst.base + idx)
      (nextCharSize ((F.encode (c :: post)).getD · 0) (encodingOf F)).toNat
      ((F.encode (c :: post)).getD · 0) :=
    (h.reads_shift hidx).mono (by rw [hsize, Form.encode_cons, List.length_append]; omega)
  rw [h.enc, getNextChar_eq hread, getNextCharSize_eq hread, hchar]
  exact ⟨rfl, _, rfl, hsize⟩

/-- The walk over the encoding of a list gives the list back. -/
theorem walkString_eq {cs : List Char} (h : HoldsText m dst F cs) :
    walkString dst m = .ok (cs.map Char.val, dst.writeCur) := by
  have hlt := dst.writeCur.toNat_lt
  refine Except.wp_eq.1 (wp_whileLoop (fun (idx, decoded) => ∃ pre post, cs = pre ++ post ∧
    idx.toNat = (F.encode pre).length ∧ decoded = pre.map Char.val)
    (fun (idx, _) => dst.writeCur.toNat - idx.toNat) ?_ _ ⟨[], cs, rfl, rfl, rfl⟩
    (Nat.lt_of_le_of_lt (Nat.sub_le _ _) hlt))
  rintro ⟨idx, decoded⟩ ⟨pre, post, rfl, hidx, rfl⟩
  have hlen := h.len
  rw [Form.encode_append, List.length_append] at hlen
  rw [Except.wp_ite]
  cases post with
  | nil =>
    have hend : idx = dst.writeCur := UInt64.toNat_inj.1 (by rw [hlen, hidx]; rfl)
    refine ⟨fun hlt => absurd hlt (by rw [hend]; exact UInt64.lt_irrefl _), fun _ => ?_⟩
    rw [Except.wp_pure, Ctl.post_done, hend, List.append_nil]
  | cons c post =>
    obtain ⟨hchar, size, hread, hsize⟩ := h.next hidx
    have hpos := length_bytes_pos F c
    rw [Form.encode_cons, List.length_append] at hlen
    refine ⟨fun _ => ?_, fun hge => absurd (UInt64.lt_iff_toNat_lt.2 (by omega)) hge⟩
    rw [hchar, Except.ok_bind, hread, Except.ok_bind, Except.wp_pure,
      Ctl.post_next, h.enc, decodeChar_packed]
    have hnext : (idx + size.toUInt64).toNat = (F.encode (pre ++ [c])).length := by
      rw [UInt64.toNat_add, UInt32.toNat_toUInt64, hsize, hidx, Form.encode_append,
        List.length_append, Form.encode_cons]
      simp only [Form.encode_nil, List.append_nil]
      exact Nat.mod_eq_of_lt (by omega)
    refine ⟨⟨pre ++ [c], post, by simp, hnext, by simp⟩, ?_⟩
    dsimp only
    rw [hnext, Form.encode_append, List.length_append, Form.encode_cons, List.length_append]
    omega

end

/-- A list appended character by character gives the string and the memory that transcoding its
UTF-32LE form gives, and the walk over the result gives the list. -/
theorem appendChars_agree (F : Form) (cs : List Char) (m : Mem) (src dst : String)
    (hsrc : HoldsText m src .utf32le cs) (hdst : Writable m dst) (henc : dst.enc = encodingOf F)
    (hempty : dst.writeCur = 0) (hfits : (F.encode cs).length ≤ dst.size.toNat)
    (hread : m.Readable dst.base dst.size.toNat)
    (hapart : Apart src.base src.writeCur.toNat dst.base dst.size.toNat) :
    ∃ dst' m', appendChars cs dst m = .ok (true, dst', m') ∧
      transcode src dst m = .ok (true, dst', m') ∧
      dst'.writeCur.toNat = (F.encode cs).length ∧ Holds m'.read dst'.base (F.encode cs) ∧
      walkString dst' m' = .ok (cs.map Char.val, dst'.writeCur) := by
  have hroom : dst.room = dst.size.toNat := by rw [String.room, hempty]; rfl
  have hbase : dst.base + dst.writeCur = dst.base := by rw [hempty, UInt64.add_zero]
  have htext := holdsText_appendedPart hdst henc (by rw [hroom]; exact hfits)
    (by rw [hbase, hroom]; exact hread)
  have hholds : HoldsText (m.store (dst.base + dst.writeCur) (F.encode cs))
      (dst.grown (F.encode cs).length) F cs := by
    refine ⟨henc, ?_, ?_⟩
    · rw [hdst.toNat_grown (by rw [hroom]; exact hfits), hempty]; simp
    · have hbytes := htext.bytes
      rwa [show (appendedPart dst (F.encode cs).length).base = dst.base from hbase] at hbytes
  refine ⟨_, _, appendChars_eq cs hdst henc (by rw [hroom]; exact hfits),
    (transcode_text_spec hsrc hdst henc (by rw [hbase, hroom]; exact hapart)).of_le
    (by rw [hroom]; exact hfits), hholds.len, hholds.bytes, walkString_eq hholds⟩

/-! The two characters of `euroText`, from UTF-32LE to UTF-16BE. -/

def wideMem : Mem :=
  (⟨fun _ => 0, fun _ => true, fun _ => true⟩ : Mem).store 16 (Form.utf32le.encode euroText)

def wideSrc : String := { base := 16, writeCur := 8, size := 8, enc := .utf32le }

def emptyDst : String := { base := 64, writeCur := 0, size := 8, enc := .utf16be }

theorem appendChars_agree_euro :
    ∃ dst' m', appendChars euroText emptyDst wideMem = .ok (true, dst', m') ∧
    transcode wideSrc emptyDst wideMem = .ok (true, dst', m') ∧ dst'.writeCur.toNat = 6 ∧
    Holds m'.read dst'.base (Form.utf16be.encode euroText) ∧
    walkString dst' m' = .ok ([0x20AC, 0x1F600], dst'.writeCur) := by
  have hsrc : HoldsText wideMem wideSrc .utf32le euroText :=
    ⟨rfl, by decide, Mem.holds_store fun _ _ => rfl⟩
  have hdst : Writable wideMem emptyDst := ⟨by decide, by decide, fun _ _ => rfl⟩
  exact appendChars_agree .utf16be euroText wideMem wideSrc emptyDst hsrc hdst rfl rfl
    (by decide) (fun _ _ => rfl) (apart_of_le (by decide) (by decide))

end TinyBase
