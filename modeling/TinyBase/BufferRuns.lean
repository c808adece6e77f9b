import TinyBase.Lib.Run
import TinyBase.Memory

/-!
# Runs of buffer operations and the allocation they write to

`AdvanceBuffer` moves `Base` and shrinks `WriteCur`, but leaves `Size` as it was. A run therefore
keeps `[Base, Base + Size)` inside the allocation exactly as long as the bytes advanced over, added
up, are at most the bytes between the end of the buffer and the end of the allocation
(`always_inAllocation_iff`).
-/

namespace TinyBase

/-- A block of memory; as in C, the address one past its end does not wrap around. -/
structure Allocation where
  base : Ptr
  len : Nat
  fits : base.toNat + len < 2 ^ 64

namespace Allocation

/-- The `n` bytes from `p` are bytes of the allocation. -/
def Inside (al : Allocation) (p : Ptr) (n : Usz) : Prop :=
  al.base.toNat ≤ p.toNat ∧ p.toNat + n.toNat ≤ al.base.toNat + al.len

/-- `a` is the address of a byte of the allocation. -/
def Mem (al : Allocation) (a : Ptr) : Prop :=
  al.base.toNat ≤ a.toNat ∧ a.toNat < al.base.toNat + al.len

instance (al : Allocation) (a : Ptr) : Decidable (al.Mem a) := inferInstanceAs (Decidable (_ ∧ _))

theorem Inside.mem {al : Allocation} {p : Ptr} {n : Usz} (h : al.Inside p n) {i : Usz}
    (hi : i.toNat < n.toNat) : al.Mem (p + i) := by
  have hfits := al.fits
  obtain ⟨h1, h2⟩ := h
  have hpi : (p + i).toNat = p.toNat + i.toNat := UInt64.toNat_add_of_lt (by omega)
  exact ⟨by omega, by omega⟩

end Allocation

/-- A call on a buffer. -/
inductive BufferOp where
  | advanceBuffer (numBytes : Usz)
  | appendDataToBuffer (rd : Reader) (src : Ptr) (srcSize : Usz)
  | appendBufferToBuffer (src : View)
  | clearBuffer

namespace BufferOp

/-- The call on the buffer `s.1` in the memory `s.2`; a call that returns nothing counts as
`true`. -/
def exec : BufferOp → Buffer × Mem → Res (Bool × (Buffer × Mem))
  | advanceBuffer n, (buf, m) => pure (true, TinyBase.advanceBuffer buf n, m)
  | appendDataToBuffer rd src srcSize, (buf, m) => TinyBase.appendDataToBuffer rd src srcSize buf m
  | appendBufferToBuffer src, (buf, m) => TinyBase.appendBufferToBuffer src buf m
  | clearBuffer, (buf, m) => do
    let s ← TinyBase.clearBuffer buf m
    pure (true, s)

/-- What a caller has to grant: a buffer is advanced by at most what is written in it, and the
source of an append can be read. -/
def Pre (s : Buffer × Mem) : BufferOp → Prop
  | advanceBuffer n => n ≤ s.1.writeCur
  | appendDataToBuffer rd src srcSize => ∃ f, Reads rd src srcSize.toNat f
  | appendBufferToBuffer src => ∃ f, Reads src.rd src.base src.writeCur.toNat f
  | clearBuffer => True

/-- The bytes the call advances over. -/
def advanced : BufferOp → Nat
  | advanceBuffer n => n.toNat
  | _ => 0

end BufferOp

/-- The extent of the buffer lies in the allocation, and what is written in it within the extent. -/
def InAllocation (al : Allocation) (buf : Buffer) : Prop :=
  al.Inside buf.base buf.size ∧ buf.writeCur ≤ buf.size

/-- The states of the memory in which exactly the bytes of the allocation may be written. -/
def WritesOnly (al : Allocation) (m : Mem) : Prop := ∀ a, m.writable a = decide (al.Mem a)

section
variable {al : Allocation} {buf : Buffer} {m : Mem}

theorem InAllocation.append (h : InAllocation al buf)
    (hm : WritesOnly al m) {rd : Reader} {src : Ptr} {srcSize : Usz} {f : Nat → UInt8}
    (hsrc : Reads rd src srcSize.toNat f) :
    ∃ r buf' m', appendDataToBuffer rd src srcSize buf m = .ok (r, buf', m') ∧
      buf'.base = buf.base ∧
      buf'.size = buf.size ∧ buf'.writeCur ≤ buf.size ∧ WritesOnly al m' := by
  obtain ⟨hin, hcur⟩ := h
  have hroom : (buf.size - buf.writeCur).toNat = buf.size.toNat - buf.writeCur.toNat :=
    UInt64.toNat_sub_of_le _ _ hcur
  rw [UInt64.le_iff_toNat_le] at hcur
  by_cases hle : srcSize ≤ buf.size - buf.writeCur
  · have hsize : srcSize.toNat ≤ buf.size.toNat - buf.writeCur.toNat := by
      rw [← hroom]; exact UInt64.le_iff_toNat_le.1 hle
    have hlt := buf.size.toNat_lt
    refine ⟨_, _, _, appendDataToBuffer_of_le hsrc hle fun i hi => ?_, rfl, rfl, ?_, hm⟩
    · have hci : (buf.writeCur + i).toNat = buf.writeCur.toNat + i.toNat :=
        UInt64.toNat_add_of_lt (by omega)
      rw [hm, UInt64.add_assoc]
      exact decide_eq_true (hin.mem (by omega))
    · rw [UInt64.le_iff_toNat_le, UInt64.toNat_add, Nat.mod_eq_of_lt (by omega)]
      omega
  · exact ⟨_, _, _, appendDataToBuffer_of_lt (UInt64.not_le.1 hle), rfl, rfl,
      UInt64.le_iff_toNat_le.2 hcur, hm⟩

theorem InAllocation.clear (h : InAllocation al buf) (hm : WritesOnly al m) :
    ∃ buf' m', clearBuffer buf m = .ok (buf', m') ∧ buf'.base = buf.base ∧ buf'.size = buf.size ∧
      buf'.writeCur ≤ buf.size ∧ WritesOnly al m' := by
  obtain ⟨hin, hcur⟩ := h
  by_cases hb : buf.base ≠ 0
  · have hlt : buf.size.toNat ≤ 2 ^ 64 := Nat.le_of_lt buf.size.toNat_lt
    have hw :
        m.memset buf.base 0 buf.size = .ok (m.store buf.base (List.replicate buf.size.toNat 0)) :=
      Mem.writeBytes_eq (fun i hi => by rw [hm]; exact decide_eq_true (hin.mem (by simpa using hi)))
        (by simpa using hlt)
    refine ⟨{ buf with writeCur := 0 }, m.store buf.base _, by rw [clearBuffer, if_pos hb, hw]; rfl,
      rfl, rfl, ?_, hm⟩
    simp [UInt64.le_iff_toNat_le]
  · exact ⟨buf, m, by rw [clearBuffer, if_neg hb]; rfl, rfl, rfl, hcur, hm⟩

/-- What one call does to the extent: `Base` moves by the bytes advanced over, `Size` stays. -/
theorem InAllocation.exec (h : InAllocation al buf) (hm : WritesOnly al m) {op : BufferOp}
    (hpre : op.Pre (buf, m)) :
    ∃ r buf' m', op.exec (buf, m) = .ok (r, buf', m') ∧
      buf'.base.toNat = buf.base.toNat + op.advanced ∧
      buf'.size = buf.size ∧ buf'.writeCur ≤ buf.size ∧ WritesOnly al m' := by
  cases op with
  | advanceBuffer n =>
    have hfits := al.fits
    have hend := h.1.2
    have hcur : buf.writeCur.toNat ≤ buf.size.toNat := UInt64.le_iff_toNat_le.1 h.2
    have hn : n.toNat ≤ buf.writeCur.toNat := UInt64.le_iff_toNat_le.1 hpre
    refine ⟨_, _, _, rfl, ?_, rfl, ?_, hm⟩
    · show (buf.base + n).toNat = buf.base.toNat + n.toNat
      rw [UInt64.toNat_add]; exact Nat.mod_eq_of_lt (by omega)
    · show buf.writeCur - n ≤ buf.size
      have hsub : (buf.writeCur - n).toNat = buf.writeCur.toNat - n.toNat :=
        UInt64.toNat_sub_of_le _ _ hpre
      rw [UInt64.le_iff_toNat_le, hsub]; omega
  | appendDataToBuffer rd src srcSize =>
    obtain ⟨f, hsrc⟩ := hpre
    obtain ⟨r, buf', m', he, hbase, hrest⟩ := h.append hm hsrc
    exact ⟨r, buf', m', he, by rw [hbase]; rfl, hrest⟩
  | appendBufferToBuffer src =>
    obtain ⟨f, hsrc⟩ := hpre
    obtain ⟨r, buf', m', he, hbase, hrest⟩ := h.append hm hsrc
    exact ⟨r, buf', m', he, by rw [hbase]; rfl, hrest⟩
  | clearBuffer =>
    obtain ⟨buf', m', he, hbase, hrest⟩ := h.clear hm
    refine ⟨true, buf', m', ?_, by rw [hbase]; rfl, hrest⟩
    show (TinyBase.clearBuffer buf m >>= fun s => pure (true, s)) = _
    rw [he]; rfl

/-- Every call of a run stays inside the allocation, and so does the buffer after it, if and only if
the bytes the run advances over fit between the end of the buffer and the end of the allocation. -/
theorem always_inAllocation_iff (ops : List BufferOp)
    (h : InAllocation al buf) (hm : WritesOnly al m)
    (hpre : Respects BufferOp.exec BufferOp.Pre ops (buf, m)) :
    Always BufferOp.exec (fun _ _ _ s' => InAllocation al s'.1) ops (buf, m) ↔
      buf.base.toNat + buf.size.toNat + (ops.map BufferOp.advanced).sum ≤
      al.base.toNat + al.len := by
  induction ops generalizing buf m with
  | nil => simpa using h.1.2
  | cons op ops ih =>
    obtain ⟨hop, hrest⟩ := hpre
    obtain ⟨r, buf', m', he, hbase, hsize, hcur, hm'⟩ := h.exec hm hop
    rw [always_cons_of_eq he, List.map_cons, List.sum_cons]
    constructor
    · rintro ⟨hin, hall⟩
      have := (ih hin hm' (hrest r _ he)).1 hall
      rw [hbase, hsize] at this
      omega
    · intro hle
      have hin : InAllocation al buf' := by
        refine ⟨⟨?_, ?_⟩, hsize ▸ hcur⟩
        · have := h.1.1; omega
        · rw [hbase, hsize]; omega
      refine ⟨hin, (ih hin hm' (hrest r _ he)).2 ?_⟩
      rw [hbase, hsize]
      omega

end

/-! ### A run that leaves the allocation -/

/-- The eight bytes from address `16`. -/
def eightBytes : Allocation := ⟨16, 8, by decide⟩

/-- Memory of which only these eight bytes may be written. -/
def eightBytesMem : Mem := ⟨fun _ => 0, fun _ => true, fun a => decide (eightBytes.Mem a)⟩

/-- Advance over the four bytes written, then fill the eight bytes `Size` still promises. -/
def overrun : List BufferOp := [.advanceBuffer 4, .appendDataToBuffer (fun _ => pure 1) 0 8]

theorem overrun_leaves_allocation :
    InAllocation eightBytes ⟨16, 4, 8⟩ ∧ WritesOnly eightBytes eightBytesMem ∧
      Respects BufferOp.exec BufferOp.Pre overrun (⟨16, 4, 8⟩, eightBytesMem) ∧
      ¬ Always BufferOp.exec (fun _ _ _ s' => InAllocation eightBytes s'.1) overrun
      (⟨16, 4, 8⟩, eightBytesMem) ∧
      (BufferOp.exec (.advanceBuffer 4) (⟨16, 4, 8⟩, eightBytesMem) >>= fun s =>
        BufferOp.exec (.appendDataToBuffer (fun _ => pure 1) 0 8) s.2) = .error (.write 24) := by
  refine ⟨⟨⟨by decide, by decide⟩, by decide⟩, fun _ => rfl, ?_, ?_, rfl⟩
  · refine ⟨(by decide : (4 : Usz) ≤ 4),
      fun r s' _ => ⟨⟨fun _ => 1, fun _ _ => rfl⟩, fun _ _ _ => trivial⟩⟩
  · have hadvance : BufferOp.exec (.advanceBuffer 4) (⟨16, 4, 8⟩, eightBytesMem) =
        .ok (true, ⟨20, 0, 8⟩, eightBytesMem) := rfl
    rw [overrun, always_cons_of_eq hadvance]
    rintro ⟨⟨⟨-, h⟩, -⟩, -⟩
    exact absurd h (by decide)

/-- Advance and fill, twice, with an append between that does not fit. -/
def advanceAndFill : List BufferOp :=
  [.advanceBuffer 2, .appendDataToBuffer (fun _ => pure 1) 0 2,
    .appendBufferToBuffer ⟨fun _ => pure 1, 0, 5⟩,
    .advanceBuffer 1, .appendDataToBuffer (fun _ => pure 1) 0 3]

/-- The run advances over three bytes, and four follow the buffer. -/
theorem always_inAllocation_iff_advance_three :
    Always BufferOp.exec (fun _ _ _ s' => InAllocation eightBytes s'.1) advanceAndFill
      (⟨16, 2, 4⟩, eightBytesMem) := by
  have hin : InAllocation eightBytes ⟨16, 2, 4⟩ := ⟨⟨by decide, by decide⟩, by decide⟩
  refine (always_inAllocation_iff advanceAndFill hin (fun _ => rfl) ?_).2 (by decide)
  refine ⟨(by decide : (2 : Usz) ≤ 2), fun r s' h => ?_⟩
  cases h
  refine ⟨⟨fun _ => 1, fun _ _ => rfl⟩, fun r s' h => ?_⟩
  cases h
  refine ⟨⟨fun _ => 1, fun _ _ => rfl⟩, fun r s' h => ?_⟩
  cases h
  refine ⟨(by decide : (1 : Usz) ≤ 2), fun r s' h => ?_⟩
  cases h
  exact ⟨⟨fun _ => 1, fun _ _ => rfl⟩, fun _ _ _ => trivial⟩

end TinyBase
