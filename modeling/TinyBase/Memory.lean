import TinyBase.Mem

/-!
# Buffers (`tinybase-memory.c`, "Creating and editing")

A buffer is a base address, the number of bytes written and the full size, all 64 bits wide. The
functions that append take their destination buffer and the memory it lies in, and return both. The
source of a copy is read through a `Reader`: that of the same memory, or of a local object.
-/

namespace TinyBase

/-- `buffer`. -/
structure Buffer where
  base : Ptr
  writeCur : Usz
  size : Usz
deriving DecidableEq, Repr

/-- A buffer passed by value to be read: what is written in it, and where it is read from. -/
structure View where
  rd : Reader
  base : Ptr
  writeCur : Usz

/-- `INVALID_IDX`. -/
def invalidIdx : Usz := uszMax

/-- `Buf` as a source, read from the memory `m`. -/
def Buffer.view (buf : Buffer) (m : Mem) : View := ⟨m.read, buf.base, buf.writeCur⟩

def clearBuffer (buf : Buffer) (m : Mem) : Res (Buffer × Mem) :=
  if buf.base ≠ 0 then do
    let m ← m.memset buf.base 0 buf.size
    pure ({ buf with writeCur := 0 }, m)
  else pure (buf, m)

def advanceBuffer (buf : Buffer) (numBytes : Usz) : Buffer :=
  { buf with base := buf.base + numBytes, writeCur := buf.writeCur - numBytes }

def copyData (m : Mem) (dst : Ptr) (dstSize : Usz) (rd : Reader) (src : Ptr) (srcSize : Usz) :
    Res (Bool × Mem) :=
  if dstSize ≥ srcSize then do
    let m ← m.memcpy dst rd src srcSize
    pure (true, m)
  else pure (false, m)

def appendDataToBuffer (rd : Reader) (src : Ptr) (srcSize : Usz) (dst : Buffer) (m : Mem) :
    Res (Bool × Buffer × Mem) := do
  let (result, m) ← copyData m (dst.base + dst.writeCur) (dst.size - dst.writeCur) rd src srcSize
  if result then pure (result, { dst with writeCur := dst.writeCur + srcSize }, m)
  else pure (result, dst, m)

def appendBufferToBuffer (src : View) (dst : Buffer) (m : Mem) : Res (Bool × Buffer × Mem) := do
  let (result, m) ← copyData m (dst.base + dst.writeCur) (dst.size - dst.writeCur)
      src.rd src.base src.writeCur
  if result then pure (result, { dst with writeCur := dst.writeCur + src.writeCur }, m)
  else pure (result, dst, m)

section
variable {m : Mem} {rd : Reader} {src : Ptr} {srcSize : Usz} {f : Nat → UInt8}

theorem copyData_of_le {dst : Ptr} {dstSize : Usz} (hsrc : Reads rd src srcSize.toNat f)
    (hle : srcSize ≤ dstSize) (hw : ∀ i : Usz, i.toNat < srcSize.toNat → m.writable (dst + i)) :
    copyData m dst dstSize rd src srcSize = .ok
      (true, m.store dst ((List.range srcSize.toNat).map f)) := by
  have hlt : srcSize.toNat ≤ 2 ^ 64 := Nat.le_of_lt srcSize.toNat_lt
  rw [copyData, if_pos hle, Mem.memcpy, readBytes_eq hsrc hlt, Except.ok_bind,
    Mem.writeBytes_eq (by simpa using hw) (by simpa using hlt)]
  rfl

theorem copyData_of_lt {dst : Ptr} {dstSize : Usz} (hlt : dstSize < srcSize) :
    copyData m dst dstSize rd src srcSize = .ok (false, m) := by
  rw [copyData, if_neg (UInt64.not_le.2 hlt)]
  rfl

/-- An append whose bytes fit stores them at `WriteCur` and moves it behind them. -/
theorem appendDataToBuffer_of_le {dst : Buffer} (hsrc : Reads rd src srcSize.toNat f)
    (hle : srcSize ≤ dst.size - dst.writeCur)
    (hw : ∀ i : Usz, i.toNat < srcSize.toNat → m.writable (dst.base + dst.writeCur + i)) :
    appendDataToBuffer rd src srcSize dst m =
      .ok (true, { dst with writeCur := dst.writeCur + srcSize },
        m.store (dst.base + dst.writeCur) ((List.range srcSize.toNat).map f)) := by
  rw [appendDataToBuffer, copyData_of_le hsrc hle hw]
  rfl

/-- An append whose bytes do not fit changes nothing. -/
theorem appendDataToBuffer_of_lt {dst : Buffer} (hlt : dst.size - dst.writeCur < srcSize) :
    appendDataToBuffer rd src srcSize dst m = .ok (false, dst, m) := by
  rw [appendDataToBuffer, copyData_of_lt hlt]
  rfl

end

end TinyBase
