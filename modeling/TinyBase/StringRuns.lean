import TinyBase.Lib.Run
import TinyBase.Numbers
import TinyBase.Transcode

/-!
# Runs of string appends

Each of the five operations appends some bytes or nothing (`AppendOp.appends`), so a run of them
keeps the string writable and changes only its room.
-/

namespace TinyBase

/-- A call that appends to a string. -/
inductive AppendOp where
  | appendCharToString (src : MbChar)
  | appendDataToString (src : Ptr) (srcSize : Usz)
  | appendStringToString (src : String)
  | appendIntToString (integer : Isz)
  | appendUIntToString (integer : Usz)

namespace AppendOp

/-- The call on the string `s.1` in the memory `s.2`. -/
def exec : AppendOp → String × Mem → Res (Bool × (String × Mem))
  | appendCharToString src, (dst, m) => TinyBase.appendCharToString src dst m
  | appendDataToString src srcSize, (dst, m) => TinyBase.appendDataToString src srcSize dst m
  | appendStringToString src, (dst, m) => TinyBase.appendStringToString src dst m
  | appendIntToString integer, (dst, m) => TinyBase.appendIntToString integer dst m
  | appendUIntToString integer, (dst, m) => TinyBase.appendUIntToString integer dst m

/-- What a caller has to grant. The source can be read; where it is transcoded, so can the three
bytes behind it, of any content, and the room of the destination does not overlap with them. -/
def Pre : AppendOp → String × Mem → Prop
  | appendDataToString src srcSize, (_, m) => m.Readable src srcSize.toNat
  | appendStringToString src, (dst, m) =>
    m.Readable src.base src.writeCur.toNat ∧ (src.enc ≠ dst.enc →
      src.writeCur.toNat + 3 < 2 ^ 64 ∧ m.Readable src.base (src.writeCur.toNat + 3) ∧
        Apart src.base (src.writeCur.toNat + 3) (dst.base + dst.writeCur) dst.room)
  | _, _ => True

/-- The number of bytes the call produces. -/
def producedSize : AppendOp → String × Mem → Nat
  | appendCharToString src, (dst, _) => (getMultibyteCharSize src dst.enc).toNat
  | appendDataToString _ srcSize, _ => srcSize.toNat
  | appendStringToString src, (dst, m) =>
    if src.enc = dst.enc then src.writeCur.toNat
    else (transcoded src.enc dst.enc (m.bytesFrom src.base) src.writeCur.toNat).length
  | appendIntToString integer, (dst, _) => intSize integer dst.enc
  | appendUIntToString integer, (dst, _) => uintSize integer dst.enc

/-- The bytes the call produces. -/
def produced : AppendOp → String × Mem → List UInt8
  | appendCharToString src, (dst, _) => charBytes src dst.enc
  | appendDataToString src srcSize, (_, m) => (List.range srcSize.toNat).map (m.bytesFrom src)
  | appendStringToString src, (dst, m) =>
    if src.enc = dst.enc then (List.range src.writeCur.toNat).map (m.bytesFrom src.base)
    else transcoded src.enc dst.enc (m.bytesFrom src.base) src.writeCur.toNat
  | appendIntToString integer, (dst, _) => (intDigits integer).flatMap (wideChar dst.enc)
  | appendUIntToString integer, (dst, _) => (uintDigits integer).flatMap (wideChar dst.enc)

theorem length_produced (op : AppendOp) (s : String × Mem) :
    (op.produced s).length = op.producedSize s := by
  cases op with
  | appendCharToString src => exact length_charBytes ..
  | appendDataToString src srcSize => exact (List.length_map _).trans List.length_range
  | appendStringToString src =>
    rw [produced, producedSize]
    split_ifs
    · rw [List.length_map, List.length_range]
    · rfl
  | appendIntToString integer => exact length_intDigits ..
  | appendUIntToString integer => exact length_uintDigits ..

/-- Every call appends the bytes it produces, or nothing. -/
theorem appends {m : Mem} {dst : String} (h : Writable m dst) {op : AppendOp}
    (hpre : op.Pre (dst, m)) : Appends (op.exec (dst, m)) dst m (op.produced (dst, m)) := by
  cases op with
  | appendCharToString src => exact appendCharToString_spec h src
  | appendDataToString src srcSize => exact appendToString_spec h (Mem.Readable.reads hpre)
  | appendStringToString src =>
    obtain ⟨hcopy, htrans⟩ := hpre
    show Appends (if src.enc = dst.enc then appendBufferToString (src.toBuffer.view m) dst m
      else transcode src dst m) dst m
      (if src.enc = dst.enc then _ else _)
    by_cases henc : src.enc = dst.enc
    · rw [if_pos henc, if_pos henc]
      exact appendToString_spec h hcopy.reads
    · obtain ⟨hlen, hread, hapart⟩ := htrans henc
      have hend := readEnd_le src.enc (m.bytesFrom src.base) src.writeCur.toNat
      have hwalk := walkEnd_le src.enc (m.bytesFrom src.base) src.writeCur.toNat
      rw [if_neg henc, if_neg henc]
      refine transcode_spec h ⟨hread.reads.mono hend, fun a ha => ?_, by omega, by omega⟩
      exact hapart a (Nat.lt_of_lt_of_le ha hend)
  | appendIntToString integer => exact appendIntToString_appends h integer
  | appendUIntToString integer => exact appendUIntToString_appends h integer

end AppendOp

/-- All or nothing: what a call that returns `r` did to the string `s.1` in the memory `s.2`. -/
structure AllOrNothing (s : String × Mem) (op : AppendOp) (r : Bool) (s' : String × Mem) :
    Prop where
  cur : s'.1.writeCur ≤ s'.1.size
  same : s'.1.base = s.1.base ∧ s'.1.size = s.1.size ∧ s'.1.enc = s.1.enc
  result : r = true ↔ op.producedSize s ≤ s.1.size.toNat - s.1.writeCur.toNat
  grows : r = true → s'.1.writeCur.toNat = s.1.writeCur.toNat + op.producedSize s
  content : r = true → s'.2 = s.2.store (s.1.base + s.1.writeCur) (op.produced s)
  stays : r = false → s'.1.writeCur = s.1.writeCur
  /-- Only bytes from the old `WriteCur` up to `Size` change. -/
  frame : ∀ a, ¬ InRange (s.1.base + s.1.writeCur) (s.1.size.toNat - s.1.writeCur.toNat) a →
    s'.2.byte a = s.2.byte a

theorem AppendOp.step {m : Mem} {dst : String} (h : Writable m dst) {op : AppendOp}
    (hpre : op.Pre (dst, m)) :
    (op.exec (dst, m)).wp fun (r, s') => AllOrNothing (dst, m) op r s' ∧ Writable s'.2 s'.1 := by
  have happ := AppendOp.appends h hpre
  have hsize := op.length_produced (dst, m)
  by_cases hfits : (op.produced (dst, m)).length ≤ dst.room
  · rw [happ.of_le hfits]
    have hgrown := h.grown hfits (m.store (dst.base + dst.writeCur) (op.produced (dst, m))) rfl
    refine ⟨⟨hgrown.cur, ⟨rfl, rfl, rfl⟩, ⟨fun _ => hsize ▸ hfits, fun _ => rfl⟩,
      fun _ => ?_, fun _ => rfl, nofun, fun a ha => ?_⟩, hgrown⟩
    · rw [← hsize]; exact h.toNat_grown hfits
    · exact Mem.store_byte_of_not_inRange fun hin => ha (Nat.lt_of_lt_of_le hin hfits)
  · obtain ⟨out, hout, hrun⟩ := happ.of_lt (Nat.not_le.1 hfits)
    rw [hrun]
    have hsame : Writable (m.store (dst.base + dst.writeCur) out) dst := ⟨h.cur, h.small, h.free⟩
    refine ⟨⟨h.cur, ⟨rfl, rfl, rfl⟩, ⟨nofun, fun hle => ?_⟩, nofun, nofun,
      fun _ => rfl, fun a ha => ?_⟩, hsame⟩
    · exact absurd (hsize ▸ hle) hfits
    · exact Mem.store_byte_of_not_inRange fun hin => ha (Nat.lt_of_lt_of_le hin hout)

/-- In a run of appends to a writable string, every call is all or nothing. -/
theorem always_allOrNothing (ops : List AppendOp) (dst : String) (m : Mem) (h : Writable m dst)
    (hpre : Respects AppendOp.exec (fun s op => op.Pre s) ops (dst, m)) :
    Always AppendOp.exec AllOrNothing ops (dst, m) :=
  always_of_inv (fun s => Writable s.2 s.1) (fun _ _ hs hop => AppendOp.step hs hop) ops
    (dst, m) h hpre

/-! A source whose last character is cut off, and the byte behind it completes it. -/

def truncatedMem : Mem :=
  ⟨fun a => if a = 16 then 0xE2 else if a = 17 then 0x82 else 0xAC, fun _ => true, fun _ => true⟩

def truncatedSrc : String := { base := 16, writeCur := 2, size := 2, enc := .utf8 }

def wideDst : String := { base := 64, writeCur := 1, size := 12, enc := .utf32le }

theorem always_allOrNothing_truncated : Always AppendOp.exec AllOrNothing
    [.appendStringToString truncatedSrc, .appendIntToString (-5), .appendCharToString 65]
      (wideDst, truncatedMem) :=
  always_allOrNothing [.appendStringToString truncatedSrc, .appendIntToString (-5),
    .appendCharToString 65] wideDst truncatedMem ⟨by decide, by decide, fun _ _ => rfl⟩
    ⟨⟨fun _ _ => rfl, fun _ => ⟨by decide, fun _ _ => rfl, apart_of_le (by decide) (by decide)⟩⟩,
      fun _ _ _ => ⟨trivial, fun _ _ _ => ⟨trivial, fun _ _ _ => trivial⟩⟩⟩

end TinyBase
