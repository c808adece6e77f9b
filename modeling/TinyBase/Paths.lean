import TinyBase.Query

/-!
# Paths (`tinybase-platform-linux.c`, "Filesystem")

A path is a string in UTF-8 with a byte of storage behind its size, for the zero byte that ends it.
The functions that append one work on a copy of the destination, and on its bytes in place.
-/

namespace TinyBase

/-- `MAX_PATH_SIZE`. -/
def maxPathSize : Usz := 4096

def path (mem : Ptr) : String :=
  { base := mem, writeCur := 0, size := maxPathSize - 1, enc := .utf8 }

/-- `strlen`. -/
def strlen (rd : Reader) (cString : Ptr) : Res Usz :=
  whileLoop (fun idx => do
    let b ← rd (cString + idx)
    if b ≠ 0 then pure (.next (idx + 1)) else pure (.done idx)) (0 : Usz)

def pathCString (cString : Ptr) (m : Mem) : Res String := do
  let cStringSize ← strlen m.read cString
  pure { base := cString, writeCur := if cStringSize < maxPathSize then cStringSize
    else maxPathSize, size := 0, enc := .utf8 }

def moveUpPath (path : String) (moveUpCount : Usz) (m : Mem) : Res (Bool × String) := do
  let last ← m.read (path.base + (path.writeCur - 1))
  let path := if last = 47 then { path with writeCur := path.writeCur - 1 } else path
  let currentWriteCur := path.writeCur
  let path ← whileLoop (fun (path, count) =>
    if count < moveUpCount then do
      let backslashIdx ← charInString 47 path (returnIdxFind ||| searchReverse) m
      if backslashIdx = invalidIdx then pure (.done { path with writeCur := 0 })
      else pure (.next ({ path with writeCur := backslashIdx }, count + 1))
    else pure (.done path)) (path, (0 : Usz))
  let path := if path.writeCur > 0 then { path with writeCur := path.writeCur + 1 } else path
  pure (path.writeCur != currentWriteCur, path)

/-! ### Appending -/

/-- The variables of the loop of `_AppendPathToPath`: `C0` is set again in every round. -/
structure JoinState where
  tmp : String
  m : Mem
  c1 : UInt8 := 0
  c2 : UInt8 := 0
  readIdx : Usz := 0
  dirCharCount : Usz := 0
  readStart : Usz := 0

namespace JoinState

/-- A character of a component. -/
def take (st : JoinState) (c : UInt8) : JoinState :=
  { st with c1 := st.c2, c2 := c, readIdx := st.readIdx + 1, dirCharCount := st.dirCharCount + 1 }

/-- A slash, and what has been made of the component in front of it. -/
def slash (st : JoinState) (tmp : String) (m : Mem) : JoinState :=
  { tmp := tmp, m := m, c1 := st.c2, c2 := 47, readIdx := st.readIdx + 1, dirCharCount := 0,
    readStart := st.readIdx + 1 }

/-- `Dir`: the component in front of `ReadIdx`. -/
def dir (st : JoinState) (src : String) : String :=
  { base := src.base + st.readStart, writeCur := st.readIdx - st.readStart,
    size := 0, enc := src.enc }

end JoinState

/-- The body of the loop of `_AppendPathToPath`. It is left with true at the end of `Src`, and with
false where the function returns false. -/
def joinStep (src : String) (st : JoinState) : Res (Ctl JoinState (Bool × JoinState)) :=
  if st.readIdx < src.writeCur then do
    let c0 := st.c1
    let c1 := st.c2
    let c2 ← st.m.read (src.base + st.readIdx)
    if c2 = 47 then
      if st.dirCharCount = 1 ∧ c1 = 46 then pure (.next (st.slash st.tmp st.m))
      else if st.dirCharCount = 2 ∧ c0 = 46 ∧ c1 = 46 then do
        let (_, tmp) ← moveUpPath st.tmp 1 st.m
        pure (.next (st.slash tmp st.m))
      else do
        let (result, tmp, m) ← appendStringToString (st.dir src) st.tmp st.m
        if result then do
          let (result, tmp, m) ← appendCharToString 47 tmp m
          if result then pure (.next (st.slash tmp m))
          else pure (.done (false, { st with tmp := tmp, m := m }))
        else pure (.done (false, { st with tmp := tmp, m := m }))
    else pure (.next (st.take c2))
  else pure (.done (true, st))

/-- `Tmp` with a separator behind it, if it needs one. -/
def appendSeparator (dst : String) (m : Mem) : Res (Bool × String × Mem) :=
  if dst.writeCur > 0 then do
    let last ← m.read (dst.base + (dst.writeCur - 1))
    if last ≠ 47 then appendCharToString 47 dst m else pure (true, dst, m)
  else pure (true, dst, m)

/-- `Src` without the slash in front of it, if `Dst` is not empty. -/
def skipSeparator (src dst : String) (m : Mem) : Res String :=
  if dst.writeCur > 0 then do
    let first ← m.read src.base
    if first = 47 then pure { src with toBuffer := advanceBuffer src.toBuffer 1 } else pure src
  else pure src

/-- The last component, if `Src` does not end in a slash. -/
def appendLast (src : String) (st : JoinState) : Res (Bool × String × Mem) :=
  if st.dirCharCount > 0 then appendStringToString (st.dir src) st.tmp st.m
    else pure (true, st.tmp, st.m)

/-- `_AppendPathToPath`. -/
def appendPathToPathUnchecked (src dst : String) (m : Mem) : Res (Bool × String × Mem) := do
  let (result, tmp, m) ← appendSeparator dst m
  if result then do
    let src ← skipSeparator src dst m
    let (result, st) ← whileLoop (joinStep src) { tmp := tmp, m := m }
    if result then do
      let (result, tmp, m) ← appendLast src st
      if result then do
        let m ← m.write (tmp.base + tmp.writeCur) 0
        pure (true, tmp, m)
      else pure (false, dst, m)
    else pure (false, dst, st.m)
  else pure (false, dst, m)

def appendPathToPath (newPart dst : String) (m : Mem) : Res (Bool × String × Mem) :=
  if newPart.enc = dst.enc ∧ newPart.writeCur ≤ dst.size - dst.writeCur then
    appendPathToPathUnchecked newPart dst m
  else pure (false, dst, m)

/-- `AppendStringToPath`; the local array `NewPartUTF8` is at the given address. -/
def appendStringToPath (newPart dst : String) (newPartUTF8 : Ptr) (m : Mem) :
    Res (Bool × String × Mem) :=
  if newPart.enc ≠ dst.enc then do
    let m ← m.memset newPartUTF8 0 maxPathSize
    let (result, src, m) ← transcode newPart (path newPartUTF8) m
    if result then appendPathToPathUnchecked src dst m else pure (false, dst, m)
  else appendPathToPathUnchecked newPart dst m

def appendDataToPath (newPart : Ptr) (newPartSize : Usz) (dst : String) (m : Mem) :
    Res (Bool × String × Mem) :=
  appendPathToPathUnchecked { path newPart with writeCur := newPartSize } dst m

def appendArrayToPath (newPart : Ptr) (dst : String) (m : Mem) : Res (Bool × String × Mem) := do
  let newPartPath ← pathCString newPart m
  appendPathToPathUnchecked newPartPath dst m

end TinyBase
