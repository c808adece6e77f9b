import TinyBase.Query

/-!
# Paths (`tinybase-platform-win32.c`, "Filesystem")

Here a path is a string in UTF-16LE, with two bytes of storage behind its size for the zero unit
that ends it. Some of the tests look at a unit, some at the byte at an address, which is the low
byte of a unit, and the separators of `MoveUpPath` are found by a search for bytes.
-/

namespace TinyBase.Win32
open Unicode (leBytes ofLeBytes)

/-- `*(wchar_t*)Ptr`. -/
def loadUnit (rd : Reader) (ptr : Ptr) : Res UInt16 := do
  let bytes ← readBytes rd ptr 2
  pure (UInt16.ofNat (ofLeBytes bytes))

/-- `*(wchar_t*)Ptr = Unit`. -/
def storeUnit (m : Mem) (ptr : Ptr) (unit : UInt16) : Res Mem :=
  m.writeBytes ptr (leBytes 2 unit.toNat)

/-- `Backslash`, the literal `L"\\"`. -/
def backslash : View := ⟨localObject [92, 0], 0, 2⟩

/-- `StringInString(Backslash, Haystack, Flags)`. -/
def backslashInString (haystack : String) (flags : UInt32) (m : Mem) : Res Usz :=
  if haystack.enc = .utf16le then bufferInBuffer backslash (haystack.toBuffer.view m) flags
  else pure invalidIdx

/-- `AppendStringToString(Backslash, &Dst)`. -/
def appendBackslash (dst : String) (m : Mem) : Res (Bool × String × Mem) :=
  if dst.enc = .utf16le then appendBufferToString backslash dst m
  -- what `Transcode` makes of the literal
  else appendCharToString (encodeChar 92 dst.enc) dst m

/-- The loop of `MoveUpPath`. -/
def goUp (path : String) (moveUpCount : Usz) (m : Mem) : Res String :=
  whileLoop (fun (path, count) =>
    if count < moveUpCount then do
      let backslashIdx ← backslashInString path (returnIdxFind ||| searchReverse) m
      if backslashIdx = invalidIdx then pure (.done { path with writeCur := 0 })
      else pure (.next ({ path with writeCur := backslashIdx }, count + 1))
    else pure (.done path)) (path, (0 : Usz))

def moveUpPath (path : String) (moveUpCount : Usz) (m : Mem) : Res (Bool × String) := do
  let lastChar ← loadUnit m.read (path.base + path.writeCur - 2)
  let path := { path with writeCur := path.writeCur - if lastChar = 92 then 2 else 0 }
  let currentWriteCur := path.writeCur
  let path ← goUp path moveUpCount m
  let path := if path.writeCur > 0 then { path with writeCur := path.writeCur + 2 } else path
  pure (path.writeCur != currentWriteCur, path)

/-! ### Appending -/

/-- The variables of the loop of `_AppendPathToPath`: `C0` is set again in every round. -/
structure JoinState where
  tmp : String
  m : Mem
  c1 : UInt16 := 0
  c2 : UInt16 := 0
  readIdx : Usz := 0
  dirCharCount : Usz := 0
  readStart : Usz := 0

namespace JoinState

/-- A unit of a component. -/
def take (st : JoinState) (c : UInt16) : JoinState :=
  { st with c1 := st.c2, c2 := c, readIdx := st.readIdx + 2, dirCharCount := st.dirCharCount + 1 }

/-- A separator, and what has been made of the component in front of it. -/
def separator (st : JoinState) (c : UInt16) (tmp : String) (m : Mem) : JoinState :=
  { tmp := tmp, m := m, c1 := st.c2, c2 := c, readIdx := st.readIdx + 2, dirCharCount := 0,
    readStart := st.readIdx + 2 }

/-- `Dir`: the component in front of `ReadIdx`. -/
def dir (st : JoinState) (src : String) : String :=
  { base := src.base + st.readStart, writeCur := st.readIdx - st.readStart,
    size := 0, enc := src.enc }

end JoinState

/-- The body of the loop of `_AppendPathToPath`. It is left with true at the end of `Src`, and with
false where the function returns false. -/
def joinStep (src : String) (st : JoinState) : Res (Ctl JoinState (Bool × JoinState)) :=
  if st.readIdx < src.writeCur then do
    let c0 := st.c1
    let c1 := st.c2
    let c2 ← loadUnit st.m.read (src.base + st.readIdx)
    if c2 = 92 ∨ c2 = 47 then
      if st.dirCharCount = 1 ∧ c1 = 46 then pure (.next (st.separator c2 st.tmp st.m))
      else if st.dirCharCount = 2 ∧ c0 = 46 ∧ c1 = 46 then do
        let (_, tmp) ← moveUpPath st.tmp 1 st.m
        pure (.next (st.separator c2 tmp st.m))
      else do
        let (result, tmp, m) ← appendStringToString (st.dir src) st.tmp st.m
        if result then do
          let (result, tmp, m) ← appendBackslash tmp m
          if result then pure (.next (st.separator c2 tmp m))
          else pure (.done (false, { st with tmp := tmp, m := m }))
        else pure (.done (false, { st with tmp := tmp, m := m }))
    else pure (.next (st.take c2))
  else pure (.done (true, st))

/-- `Tmp` with a separator behind it, if the byte two in front of its end is not a backslash. -/
def appendSeparator (dst : String) (m : Mem) : Res (Bool × String × Mem) :=
  if dst.writeCur > 0 then do
    let last ← m.read (dst.base + (dst.writeCur - 2))
    if last ≠ 92 then appendBackslash dst m else pure (true, dst, m)
  else pure (true, dst, m)

/-- `Src` without its first unit, if the byte of it at `Src.Base` is a separator. -/
def skipSeparator (src : String) (m : Mem) : Res String := do
  let first ← m.read src.base
  if first = 92 ∨ first = 47 then pure { src with toBuffer := advanceBuffer src.toBuffer 2 }
    else pure src

/-- The last component, if `Src` does not end in a separator. -/
def appendLast (src : String) (st : JoinState) : Res (Bool × String × Mem) :=
  if st.dirCharCount > 0 then appendStringToString (st.dir src) st.tmp st.m
    else pure (true, st.tmp, st.m)

/-- `_AppendPathToPath`. -/
def appendPathToPathUnchecked (src dst : String) (m : Mem) : Res (Bool × String × Mem) := do
  let (result, tmp, m) ← appendSeparator dst m
  if result then do
    let src ← skipSeparator src m
    let (result, st) ← whileLoop (joinStep src) { tmp := tmp, m := m }
    if result then do
      let (result, tmp, m) ← appendLast src st
      if result then do
        let m ← storeUnit m (tmp.base + tmp.writeCur) 0
        pure (true, tmp, m)
      else pure (false, dst, m)
    else pure (false, dst, st.m)
  else pure (false, dst, m)

def appendPathToPath (newPart dst : String) (m : Mem) : Res (Bool × String × Mem) :=
  if newPart.enc = dst.enc ∧ newPart.writeCur ≤ dst.size - dst.writeCur then
    appendPathToPathUnchecked newPart dst m
  else pure (false, dst, m)

end TinyBase.Win32
