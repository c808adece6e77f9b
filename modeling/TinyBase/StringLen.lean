import TinyBase.Strings

/-!
# The length of a string (`tinybase-encoding.c`, `StringLen`)

The functions that count walk over the characters of a string, by index or by pointer. `char` is
signed on x64, so the loops that count printable characters put a word together from sign-extended
bytes; the two for UTF-16 move on by the size of that word.
-/

namespace TinyBase

/-- A loop over the characters of a string, by index or by pointer: `charAt` decides whether the
character at `cur` is counted and how far the loop moves on. -/
def countLoop (start stop : Usz) (charAt : Usz → Res (Bool × UInt32)) : Res Usz :=
  whileLoop (fun (cur, result) =>
    if cur < stop then do
      let (counted, step) ← charAt cur
      pure (.next (cur + step.toUInt64, if counted then result + 1 else result))
    else pure (.done result)) (start, (0 : Usz))

/-- `for (Idx = 0; Idx < A.WriteCur; )`. -/
def countByIdx (a : String) (charAt : Ptr → Res (Bool × UInt32)) : Res Usz :=
  countLoop 0 a.writeCur fun idx => charAt (a.base + idx)

/-- `for (Ptr = A.Base; Ptr < A.Base + A.WriteCur; )`. -/
def countByPtr (a : String) (charAt : Ptr → Res (Bool × UInt32)) : Res Usz :=
  countLoop a.base (a.base + a.writeCur) charAt

/-- A `char` as an `int`, in a 32-bit word. -/
def charBits (b : UInt8) : UInt32 := b.toInt8.toInt32.toUInt32

/-- `Ptr[n-1] << 8 * (n-1) | ... | Ptr[0]` of `n` bytes, as `char`. -/
def packChars (ptr : Nat → UInt8) (size : UInt32) : UInt32 :=
  if size = 1 then charBits (ptr 0)
  else if size = 2 then charBits (ptr 1) <<< 8 ||| charBits (ptr 0)
  else if size = 3 then charBits (ptr 2) <<< 16 ||| charBits (ptr 1) <<< 8 ||| charBits (ptr 0)
  else charBits (ptr 3) <<< 24 ||| charBits (ptr 2) <<< 16 ||| charBits (ptr 1) <<< 8 |||
    charBits (ptr 0)

/-- The order of the bytes in the loops for the two big-endian encodings. -/
def swapUnits (enc : Encoding) (ptr : Nat → UInt8) (i : Nat) : UInt8 :=
  match enc with
  | .utf16be => ptr (i ^^^ 1)
  | .utf32be => ptr (3 - i)
  | _ => ptr i

/-- The test of all the loops that count printable characters but the one for ASCII. -/
def isPrintable (bytes : UInt32) : Bool := (bytes ≥ 0x20 && bytes < 0x7f) || bytes > 0x9f

/-- One round of `_UTF8LenPrintChar`, `_UTF16LELenPrintChar`, `_UTF16BELenPrintChar`,
`_UTF32LELenPrintChar` and `_UTF32BELenPrintChar`. -/
def printCharAt (enc : Encoding) (m : Mem) (ptr : Ptr) : Res (Bool × UInt32) := do
  let size ← getNextCharSize m.read ptr enc
  let bytes ← readBytes m.read ptr size.toNat
  let char := packChars (swapUnits enc (bytes.getD · 0)) size
  match enc with
  | .utf16le | .utf16be => pure (isPrintable char, if char > 0xFFFF then 4 else 2)
  | _ => pure (isPrintable char, size)

/-- `_AsciiLenPrintChar`. -/
def asciiLenPrintChar (a : String) (m : Mem) : Res Usz :=
  countByIdx a fun ptr => do
    let b ← m.read ptr
    pure (b ≥ 0x20 && b < 0x7f, 1)

/-- `_UTF8LenCodePoints`. -/
def utf8LenCodePoints (a : String) (m : Mem) : Res Usz :=
  countByIdx a fun ptr => do
    let b ← m.read ptr
    pure (b &&& 0xc0 ≠ 0x80, 1)

/-- `_UTF8LenPrintChar`. -/
def utf8LenPrintChar (a : String) (m : Mem) : Res Usz := countByPtr a (printCharAt .utf8 m)

/-- `_UTF16LELenCodePoints`. -/
def utf16LELenCodePoints (a : String) (m : Mem) : Res Usz :=
  countByIdx a fun ptr => do
    let size ← getNextCharSize m.read ptr .utf16le
    pure (true, size)

/-- `_UTF16BELenCodePoints`. -/
def utf16BELenCodePoints (a : String) (m : Mem) : Res Usz :=
  countByIdx a fun ptr => do
    let size ← getNextCharSize m.read ptr .utf16be
    pure (true, size)

/-- `_UTF16LELenPrintChar`. -/
def utf16LELenPrintChar (a : String) (m : Mem) : Res Usz := countByPtr a (printCharAt .utf16le m)

/-- `_UTF16BELenPrintChar`. -/
def utf16BELenPrintChar (a : String) (m : Mem) : Res Usz := countByPtr a (printCharAt .utf16be m)

/-- `_UTF32LELenPrintChar`. -/
def utf32LELenPrintChar (a : String) (m : Mem) : Res Usz := countByPtr a (printCharAt .utf32le m)

/-- `_UTF32BELenPrintChar`. -/
def utf32BELenPrintChar (a : String) (m : Mem) : Res Usz := countByPtr a (printCharAt .utf32be m)

/-- `strlen`, `_UTF16LenCString` and `_UTF32LenCString`: the bytes in front of a unit of `unit` zero
bytes. -/
def lenCString (unit : Usz) (base : Ptr) (rd : Reader) : Res Usz :=
  whileLoop (fun ptr => do
    let bytes ← readBytes rd ptr unit.toNat
    if bytes.all (· == 0) then pure (.done (ptr - base)) else pure (.next (ptr + unit))) base

/-- `len_type`. -/
inductive LenType where
  | cstring
  | codepoint
  | printchar
deriving DecidableEq, Repr

def stringLen (a : String) (lenType : LenType) (m : Mem) : Res Usz :=
  match lenType with
  | .codepoint =>
    match a.enc with
    | .ascii => pure a.writeCur
    | .utf8 => utf8LenCodePoints a m
    | .utf16le => utf16LELenCodePoints a m
    | .utf16be => utf16BELenCodePoints a m
    | .utf32le | .utf32be => pure (a.writeCur / 4)
  | .printchar =>
    match a.enc with
    | .ascii => asciiLenPrintChar a m
    | .utf8 => utf8LenPrintChar a m
    | .utf16le => utf16LELenPrintChar a m
    | .utf16be => utf16BELenPrintChar a m
    | .utf32le => utf32LELenPrintChar a m
    | .utf32be => utf32BELenPrintChar a m
  | .cstring =>
    match a.enc with
    | .utf16le | .utf16be => lenCString 2 a.base m.read
    | .utf32le | .utf32be => lenCString 4 a.base m.read
    | .ascii | .utf8 => lenCString 1 a.base m.read

end TinyBase
