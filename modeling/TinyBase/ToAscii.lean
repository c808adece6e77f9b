import TinyBase.Transcode

/-!
# Transcoding to ASCII

`EncodeChar` leaves a code point as it is when the destination is ASCII, and `GetMultibyteCharSize`
gives it as many bytes as it takes. Up to 0xFF that is one byte; above, the text is another.
-/

namespace TinyBase
open Unicode

/-- The bytes from the end of `dst` to that of `dst'`. -/
def appendedBytes (dst dst' : String) (m : Mem) : List UInt8 :=
  (List.range (dst'.writeCur.toNat - dst.writeCur.toNat)).map
    (m.bytesFrom (dst.base + dst.writeCur))

/-- `x` appends the code points `cs` to `dst`, one byte for each, if it returns true. -/
def KeepsText (x : Res (Bool × String × Mem)) (dst : String) (cs : List Char) : Prop :=
  ∀ dst' m', x = .ok (true, dst', m') →
    (appendedBytes dst dst' m').map UInt8.toNat = cs.map (·.val.toNat)

/-- The bytes that a code point takes in ASCII. -/
def asciiSize (c : Char) : Nat := (getMultibyteCharSize c.val .ascii).toNat

section
variable {m : Mem} {src dst : String} {F : Form} {cs : List Char}

theorem appendedBytes_store (hdst : Writable m dst) {bs : List UInt8}
    (hfits : bs.length ≤ dst.room) :
    appendedBytes dst (dst.grown bs.length) (m.store (dst.base + dst.writeCur) bs) = bs := by
  have hroom := hdst.room_eq
  have hsmall := hdst.small
  rw [appendedBytes, hdst.toNat_grown hfits, Nat.add_sub_cancel_left]
  exact Mem.map_bytesFrom_store (by omega)

theorem asciiSize_eq_one_iff (c : Char) : asciiSize c = 1 ↔ c.val.toNat ≤ 0xFF := by
  rw [asciiSize, getMultibyteCharSize]
  simp only [UInt32.le_iff_toNat_le, UInt32.reduceToNat]
  generalize c.val.toNat = v
  split_ifs with h1 h2 h3
  · exact iff_of_true rfl h1
  all_goals exact iff_of_false (by decide) h1

theorem charBytes_ascii {c : Char} (hc : c.val.toNat ≤ 0xFF) :
    charBytes c.val .ascii = [UInt8.ofNat c.val.toNat] := by
  have hone : (getMultibyteCharSize c.val .ascii).toNat = 1 := (asciiSize_eq_one_iff c).2 hc
  rw [charBytes, hone]
  show leBytes 1 c.val.toNat = _
  exact leBytes_one (by omega)

theorem transcoded_ascii (F : Form) (cs : List Char) :
    transcoded (encodingOf F) .ascii ((F.encode cs).getD · 0) (F.encode cs).length =
      cs.flatMap fun c => charBytes c.val .ascii := by
  rw [transcoded, chars_encode, List.flatMap_map]
  simp only [decodeChar_packed, encodeChar]

theorem length_flatMap_charBytes (cs : List Char) :
    (cs.flatMap fun c => charBytes c.val .ascii).length = (cs.map asciiSize).sum := by
  simp only [List.length_flatMap, length_charBytes]
  rfl

/-- The bytes are the code points exactly if each code point takes one byte. -/
theorem flatMap_charBytes_eq_iff (cs : List Char) :
    (cs.flatMap fun c => charBytes c.val .ascii).map UInt8.toNat = cs.map (·.val.toNat) ↔
      ∀ c ∈ cs, c.val.toNat ≤ 0xFF := by
  constructor
  · intro h c hc
    have hlen := congrArg List.length h
    rw [List.length_map, List.length_map, length_flatMap_charBytes] at hlen
    -- each takes at least one byte, so none takes more
    have hge : ∀ cs : List Char, cs.length ≤ (cs.map asciiSize).sum := fun cs => by
      induction cs with
      | nil => exact Nat.le_refl _
      | cons d ds ih =>
        have : 0 < asciiSize d := (getMultibyteCharSize_le d.val .ascii).1
        simp only [List.length_cons, List.map_cons, List.sum_cons]
        omega
    obtain ⟨as, bs, rfl⟩ := List.append_of_mem hc
    have h1 := hge as
    have h2 := hge bs
    have hpos : 0 < asciiSize c := (getMultibyteCharSize_le c.val .ascii).1
    simp only [List.map_append, List.map_cons, List.sum_append, List.sum_cons, List.length_append,
      List.length_cons] at hlen
    exact (asciiSize_eq_one_iff c).1 (by omega)
  · intro h
    induction cs with
    | nil => rfl
    | cons c cs ih =>
      have hc := h c List.mem_cons_self
      rw [List.flatMap_cons, charBytes_ascii hc, List.map_append,
        ih fun d hd => h d (List.mem_cons_of_mem c hd),
        List.map_cons, List.map_cons, List.map_nil, UInt8.toNat_ofNat', Nat.mod_eq_of_lt (by omega)]
      rfl

theorem keepsText_iff (hdst : Writable m dst) {x : Res (Bool × String × Mem)}
    (h : Appends x dst m (cs.flatMap fun c => charBytes c.val .ascii)) :
    KeepsText x dst cs ↔ (∀ c ∈ cs, c.val.toNat ≤ 0xFF) ∨ dst.room < (cs.map asciiSize).sum := by
  rcases Nat.lt_or_ge dst.room (cs.map asciiSize).sum with hlt | hge
  · obtain ⟨out, -, hx⟩ := h.of_lt (by rw [length_flatMap_charBytes]; exact hlt)
    refine iff_of_true (fun dst' m' hrun => ?_) (.inr hlt)
    rw [hx] at hrun
    cases hrun
  · have hfits : (cs.flatMap fun c => charBytes c.val .ascii).length ≤ dst.room := by
      rw [length_flatMap_charBytes]; exact hge
    have hx := h.of_le hfits
    rw [← flatMap_charBytes_eq_iff, or_iff_left (Nat.not_lt.2 hge)]
    constructor
    · intro hkeep
      have := hkeep _ _ hx
      rwa [appendedBytes_store hdst hfits] at this
    · intro heq dst' m' hrun
      rw [hx] at hrun
      cases hrun
      rw [appendedBytes_store hdst hfits, heq]

theorem transcode_ascii_appends (hsrc : HoldsText m src F cs)
    (hdst : Writable m dst) (henc : dst.enc = .ascii)
    (hapart : Apart src.base src.writeCur.toNat (dst.base + dst.writeCur) dst.room) :
    Appends (transcode src dst m) dst m (cs.flatMap fun c => charBytes c.val .ascii) := by
  have h := transcode_spec hdst (hsrc.sourceOf hapart)
  rwa [hsrc.enc, hsrc.len, henc, transcoded_ascii] at h

theorem encodingOf_ne_ascii (F : Form) : encodingOf F ≠ .ascii := by
  cases F <;> decide

end

/-- Transcoding to ASCII keeps the text exactly if all of its code points are at most 0xFF, or it
does not fit. -/
theorem transcode_ascii_iff (F : Form) (cs : List Char) (m : Mem) (src dst : String)
    (hsrc : HoldsText m src F cs) (hdst : Writable m dst) (henc : dst.enc = .ascii)
    (hapart : Apart src.base src.writeCur.toNat (dst.base + dst.writeCur) dst.room) :
    (KeepsText (transcode src dst m) dst cs ∧ KeepsText (appendStringToString src dst m) dst cs) ↔
      (∀ c ∈ cs, c.val.toNat ≤ 0xFF) ∨ dst.room < (cs.map asciiSize).sum := by
  have hsame : appendStringToString src dst m = transcode src dst m := by
    rw [appendStringToString, hsrc.enc, henc, if_neg (encodingOf_ne_ascii F)]
  rw [hsame, and_self]
  exact keepsText_iff hdst (transcode_ascii_appends hsrc hdst henc hapart)

/-! The euro sign takes two bytes, of which the second is a space. -/

def asciiDst : String := { base := 64, writeCur := 0, size := 10, enc := .ascii }

theorem transcode_ascii_iff_euro :
    ¬ (KeepsText (transcode euroSrc asciiDst euroMem) asciiDst euroText ∧
    KeepsText (appendStringToString euroSrc asciiDst euroMem) asciiDst euroText) := by
  have hsrc : HoldsText euroMem euroSrc .utf8 euroText :=
    ⟨rfl, by decide, Mem.holds_store fun _ _ => rfl⟩
  have hdst : Writable euroMem asciiDst := ⟨by decide, by decide, fun _ _ => rfl⟩
  have hiff := transcode_ascii_iff .utf8 euroText euroMem euroSrc asciiDst hsrc hdst rfl
    (apart_of_le (by decide) (by decide))
  intro h
  rcases hiff.1 h with hsmall | hfull
  · exact absurd (List.all_eq_true.2 fun c hc => decide_eq_true (hsmall c hc)) (by decide)
  · exact absurd hfull (by decide)

theorem transcode_ascii_changes : HoldsText euroMem euroSrc .utf8 euroText ∧
    ∃ dst' m', transcode euroSrc asciiDst euroMem = .ok (true, dst', m') ∧
      (appendedBytes asciiDst dst' m').map UInt8.toNat = [0xAC, 0x20, 0x00, 0xF6, 0x01] ∧
      euroText.map (·.val.toNat) = [0x20AC, 0x1F600] := by
  have hsrc : HoldsText euroMem euroSrc .utf8 euroText :=
    ⟨rfl, by decide, Mem.holds_store fun _ _ => rfl⟩
  have hdst : Writable euroMem asciiDst := ⟨by decide, by decide, fun _ _ => rfl⟩
  have happ :=
    (transcode_ascii_appends hsrc hdst rfl (apart_of_le (by decide) (by decide))).of_le (by decide)
  exact ⟨hsrc, _, _, happ, by decide, by decide⟩

end TinyBase
