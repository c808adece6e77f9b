import TinyBase.Mem

/-!
# Characters (`tinybase-encoding.c`, `tinybase-strings.c`, "Read" and "Transcode")

A multibyte character is its bytes in a 32-bit word, the first byte lowest; in the two UTF-16
encodings and in UTF-32BE the word is in host order instead, which `_AdjustEndianness` turns into
the bytes as they are in memory and back.
-/

namespace TinyBase

/-- `encoding`. -/
inductive Encoding where
  | ascii
  | utf8
  | utf16le
  | utf16be
  | utf32le
  | utf32be
deriving DecidableEq, Repr

/-- The value of an enumerator, which the source compares by `>=`. -/
def Encoding.code : Encoding → Nat
  | ascii => 1
  | utf8 => 2
  | utf16le => 3
  | utf16be => 4
  | utf32le => 5
  | utf32be => 6

/-- `mb_char`. -/
abbrev MbChar := UInt32

/-- `uchar`. -/
abbrev UChar := UInt32

/-! ### Sizes -/

/-- `_UTF8CharSize`, of `Char[0]`. -/
def utf8CharSize (char0 : UInt8) : UInt32 :=
  if char0 ≤ 0x7f then 1
  else if char0 >>> 5 = 0x6 then 2
  else if char0 >>> 4 = 0xe then 3
  else if char0 >>> 3 = 0x1e then 4
  else 1 -- in case of error

/-- The size of a UTF-16 character from the high byte of its first unit. -/
def utf16CharSize (high : UInt8) : UInt32 := if high ≥ 0xd8 ∧ high < 0xe0 then 4 else 2

/-- `_UTF16LECharSize`, of `Char[1]`. -/
def utf16LECharSize (char1 : UInt8) : UInt32 := utf16CharSize char1

/-- `_UTF16BECharSize`, of `Char[0]`. -/
def utf16BECharSize (char0 : UInt8) : UInt32 := utf16CharSize char0

def getMultibyteCharSize (char : MbChar) : Encoding → UInt32
  | .utf16le | .utf16be => if char ≤ 0xFFFF then 2 else 4
  | .utf32le | .utf32be => 4
  | .ascii | .utf8 =>
    if char ≤ 0xFF then 1
    else if char ≤ 0xFFFF then 2
    else if char ≤ 0xFFFFFF then 3
    else 4

def getNextCharSize (rd : Reader) (src : Ptr) : Encoding → Res UInt32
  | .utf8 => do
    let char0 ← rd src
    pure (utf8CharSize char0)
  | .utf16le => do
    let char1 ← rd (src + 1)
    pure (utf16LECharSize char1)
  | .utf16be => do
    let char0 ← rd src
    pure (utf16BECharSize char0)
  | .utf32le | .utf32be => pure 4
  | .ascii => pure 1

/-! ### Byte order -/

/-- `FlipEndian16`, of a 16-bit value in a wider word. -/
def flipEndian16 (i : UInt32) : UInt32 :=
  i >>> 8 &&& (0xFF : UInt32) ||| i <<< 8 &&& (0xFF00 : UInt32)

def flipEndian16x2 (i : UInt32) : UInt32 :=
  flipEndian16 i.toUInt16.toUInt32 ||| flipEndian16 (i >>> 16).toUInt16.toUInt32 <<< 16

def flipEndian32 (i : UInt32) : UInt32 :=
  i >>> 24 &&& (0xFF : UInt32) ||| i >>> 8 &&& (0xFF00 : UInt32) ||| i <<<
    8 &&& (0xFF0000 : UInt32) ||| i <<< 24 &&& (0xFF000000 : UInt32)

/-- `_AdjustEndianness`. -/
def adjustEndianness (char : MbChar) : Encoding → MbChar
  | .utf16be => flipEndian16x2 char
  | .utf32be => flipEndian32 char
  | _ => char

/-! ### Reading a character -/

/-- The `switch (Size)` of `GetNextChar`, on the bytes `Ptr[0], Ptr[1], ...`. -/
def packBytes (ptr : Nat → UInt8) (size : UInt32) : MbChar :=
  if size = 1 then (ptr 0).toUInt32
  else if size = 2 then (ptr 1).toUInt32 <<< 8 ||| (ptr 0).toUInt32
  else if size = 3 then (ptr 2).toUInt32 <<< 16 ||| (ptr 1).toUInt32 <<< 8 ||| (ptr 0).toUInt32
  else if size = 4 then
    (ptr 3).toUInt32 <<< 24 ||| (ptr 2).toUInt32 <<< 16 ||| (ptr 1).toUInt32 <<< 8 |||
      (ptr 0).toUInt32
  else 0

def getNextChar (rd : Reader) (src : Ptr) (enc : Encoding) : Res MbChar := do
  let size ← getNextCharSize rd src enc
  let bytes ← readBytes rd src size.toNat
  pure (adjustEndianness (packBytes (bytes.getD · 0) size) enc)

/-- What `GetNextCharSize` returns on the bytes `f`. -/
def nextCharSize (f : Nat → UInt8) : Encoding → UInt32
  | .utf8 => utf8CharSize (f 0)
  | .utf16le => utf16LECharSize (f 1)
  | .utf16be => utf16BECharSize (f 0)
  | .utf32le | .utf32be => 4
  | .ascii => 1

/-- What `GetNextChar` returns on the bytes `f`. -/
def nextChar (f : Nat → UInt8) (enc : Encoding) : MbChar :=
  adjustEndianness (packBytes f (nextCharSize f enc)) enc

/-! ### Code points -/

/-- `_UTF8ToUnicode`. -/
def utf8ToUnicode (char : MbChar) : UChar :=
  if char < 0x80 then char
  else if char < 0xFFFF then (char &&& 0x1f) <<< 6 ||| (char &&& 0x3f00) >>> 8
  else if char < 0xFFFFFF then
    (char &&& 0x0f) <<< 12 ||| (char &&& 0x3f00) >>> 2 ||| (char &&& 0x3f0000) >>> 16
  else
    (char &&& 0x07) <<< 18 ||| (char &&& 0x3F00) <<< 4 ||| (char &&& 0x3f0000) >>> 10 |||
      (char &&& 0x3f000000) >>> 24

/-- `_UnicodeToUTF8`. -/
def unicodeToUTF8 (char : UChar) : MbChar :=
  if char < 0x80 then char
  else if char < 0x800 then (char &&& 0x3f ||| 0x80) <<< 8 + (char >>> 6 &&& 0x1F ||| 0xc0)
  else if char < 0x10000 then
    (char &&& 0x3f ||| 0x80) <<< 16 + (char >>> 6 &&& 0x3f ||| 0x80) <<<
      8 + (char >>> 12 &&& 0xf ||| 0xe0)
  else
    (char &&& 0x3f ||| 0x80) <<< 24 + (char >>> 6 &&& 0x3f ||| 0x80) <<< 16 +
      (char >>> 12 &&& 0x3f ||| 0x80) <<< 8 + (char >>> 18 &&& 0x7 ||| 0xf0)

/-- `_UTF16ToUnicode`. -/
def utf16ToUnicode (char : MbChar) : UChar :=
  if char > 0xFFFF then
    let a := ((char &&& 0xFFFF) - 0xD800) * 0x400
    let b := (char >>> 16 &&& 0xFFFF) - 0xDC00
    0x10000 + a + b
  else char

/-- `_UnicodeToUTF16`. -/
def unicodeToUTF16 (char : UChar) : MbChar :=
  if char > 0xFFFF then
    let char := char - 0x10000
    let a := char >>> 10 + 0xd800
    let b := (char &&& 0x3ff) + 0xdc00
    b <<< 16 + a
  else char

def decodeChar (char : MbChar) : Encoding → UChar
  | .utf8 => utf8ToUnicode char
  | .utf16le | .utf16be => utf16ToUnicode char
  | _ => char

def encodeChar (char : UChar) : Encoding → MbChar
  | .utf8 => unicodeToUTF8 char
  | .utf16le | .utf16be => unicodeToUTF16 char
  | _ => char

end TinyBase
