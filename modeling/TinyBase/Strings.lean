import TinyBase.Lib.Unicode
import TinyBase.Encoding
import TinyBase.Memory

/-!
# Strings (`tinybase-strings.c`, "Transcode" and "Write")

A string is a buffer with an encoding. The functions that write take their destination and the
memory, and return both. A source string is read from that same memory, also while the destination
is being written; the locals whose address a function passes on are read as objects of their own.
-/

namespace TinyBase
open Unicode (leBytes ofLeBytes)

/-- `string`. -/
structure String extends Buffer where
  enc : Encoding
deriving DecidableEq

/-- The local object `bytes`, read by the offset into it. -/
def localObject (bytes : List UInt8) : Reader := fun i =>
  if i.toNat < bytes.length then .ok (bytes.getD i.toNat 0) else .error (.bounds i)

/-- `AppendDataToBuffer(Src, SrcSize, &Dst->Buffer)`. -/
def appendToString (rd : Reader) (src : Ptr) (srcSize : Usz) (dst : String) (m : Mem) :
    Res (Bool × String × Mem) := do
  let (result, buffer, m) ← appendDataToBuffer rd src srcSize dst.toBuffer m
  pure (result, { dst with toBuffer := buffer }, m)

/-- `AppendBufferToBuffer(Src, &Dst->Buffer)`. -/
def appendBufferToString (src : View) (dst : String) (m : Mem) : Res (Bool × String × Mem) := do
  let (result, buffer, m) ← appendBufferToBuffer src dst.toBuffer m
  pure (result, { dst with toBuffer := buffer }, m)

theorem appendBufferToString_eq (src : View) (dst : String) (m : Mem) :
    appendBufferToString src dst m = appendToString src.rd src.base src.writeCur dst m := rfl

def appendCharToString (src : MbChar) (dst : String) (m : Mem) : Res (Bool × String × Mem) :=
  let charSize := getMultibyteCharSize src dst.enc
  let src := adjustEndianness src dst.enc
  appendBufferToString ⟨localObject (leBytes 4 src.toNat), 0, charSize.toUInt64⟩ dst m

def appendDataToString (src : Ptr) (srcSize : Usz) (dst : String) (m : Mem) :
    Res (Bool × String × Mem) :=
  appendToString m.read src srcSize dst m

/-! ### A pointer to a pointer -/

/-- The pointer stored at `p`. -/
def loadPtr (rd : Reader) (p : Ptr) : Res Ptr := do
  let bytes ← readBytes rd p 8
  pure (UInt64.ofNat (ofLeBytes bytes))

def storePtr (m : Mem) (p v : Ptr) : Res Mem := m.writeBytes p (leBytes 8 v.toNat)

/-- `EatNextChar`. It asks for the size of the character at `Src`, where the pointer itself is, and
stores the pointer back as it was. -/
def eatNextChar (m : Mem) (src : Ptr) (enc : Encoding) : Res (MbChar × Mem) := do
  let ptr ← loadPtr m.read src
  let size ← getNextCharSize m.read src enc
  let bytes ← readBytes m.read ptr size.toNat
  let char := adjustEndianness (packBytes (bytes.getD · 0) size) enc
  let m ← storePtr m src ptr
  pure (char, m)

/-! ### Transcoding -/

/-- The state of a transcoding loop. -/
structure TranscodeState where
  srcIdx : Usz
  dst : String
  m : Mem

/-- One round of a transcoding loop. The three loops differ in how they get `EncodedSize` and in the
order in which they store the bytes of `Encoded`. -/
def transcodeStep (encodedSizeOf : MbChar → UInt32) (stored : MbChar → UInt32 → List UInt8)
    (src : String) (startWriteCur : Usz) (st : TranscodeState) :
    Res (Ctl TranscodeState (Bool × String × Mem)) :=
  if st.srcIdx < src.writeCur then do
    let char ← getNextChar st.m.read (src.base + st.srcIdx) src.enc
    let charSize := getMultibyteCharSize char src.enc
    let decoded := decodeChar char src.enc
    let encoded := encodeChar decoded st.dst.enc
    let encodedSize := encodedSizeOf encoded
    if st.dst.writeCur + encodedSize.toUInt64 ≤ st.dst.size then do
      let m ← st.m.writeBytes (st.dst.base + st.dst.writeCur) (stored encoded encodedSize)
      pure (.next ⟨st.srcIdx + charSize.toUInt64,
        { st.dst with writeCur := st.dst.writeCur + encodedSize.toUInt64 }, m⟩)
    else pure (.done (false, { st.dst with writeCur := startWriteCur }, st.m))
  else pure (.done (true, st.dst, st.m))

/-- Byte `i` of `_Src`, the word `encoded` as it is in memory. -/
def srcByte (encoded : MbChar) (i : Nat) : UInt8 := (leBytes 4 encoded.toNat).getD i 0

/-- `_Transcode`. -/
def transcodeHostOrder (src dst : String) (m : Mem) : Res (Bool × String × Mem) :=
  whileLoop (transcodeStep (fun encoded => getMultibyteCharSize encoded dst.enc)
    (fun encoded size =>
      let b := srcByte encoded
      if size = 1 then [b 0] else if size = 2 then [b 0, b 1] else if size = 3 then [b 0, b 1, b 2]
      else if size = 4 then [b 0, b 1, b 2, b 3] else [])
    src dst.writeCur) ⟨0, dst, m⟩

/-- `_TranscodeUTF16BE`. -/
def transcodeUTF16BE (src dst : String) (m : Mem) : Res (Bool × String × Mem) :=
  whileLoop (transcodeStep (fun encoded => getMultibyteCharSize encoded dst.enc)
    (fun encoded size =>
      let b := srcByte encoded
      if size = 2 then [b 1, b 0] else if size = 4 then [b 1, b 0, b 3, b 2] else [])
    src dst.writeCur) ⟨0, dst, m⟩

/-- `_TranscodeUTF32BE`. -/
def transcodeUTF32BE (src dst : String) (m : Mem) : Res (Bool × String × Mem) :=
  whileLoop (transcodeStep (fun _ => 4)
    (fun encoded _ =>
      let b := srcByte encoded
      [b 3, b 2, b 1, b 0])
    src dst.writeCur) ⟨0, dst, m⟩

def transcode (src dst : String) (m : Mem) : Res (Bool × String × Mem) :=
  match dst.enc with
  | .utf16be => transcodeUTF16BE src dst m
  | .utf32be => transcodeUTF32BE src dst m
  | _ => transcodeHostOrder src dst m

def appendStringToString (src dst : String) (m : Mem) : Res (Bool × String × Mem) :=
  if src.enc = dst.enc then appendBufferToString (src.toBuffer.view m) dst m
  else transcode src dst m

def advanceString (dst : String) (numChars : Usz) (m : Mem) : Res String :=
  whileLoop (fun (dst, numChars) =>
    if numChars ≠ 0 then do
      let bytesToAdvance ← getNextCharSize m.read dst.base dst.enc
      pure (.next ({ dst with
        base := dst.base + bytesToAdvance.toUInt64
        writeCur := dst.writeCur - bytesToAdvance.toUInt64
        size := dst.size - bytesToAdvance.toUInt64 }, numChars - 1))
    else pure (.done dst)) (dst, numChars)

/-! ### Numbers -/

def numberOfDigits (integer : Isz) : Res Usz :=
  whileLoop (fun (integer, count) =>
    let integer := integer / 10
    let count := count + 1
    if integer ≠ 0 then pure (.next (integer, count)) else pure (.done count)) (integer, (0 : Usz))

/-- `char Digits[USZ_MAX_DIGITS * 4] = {0}`. -/
def emptyDigits : List UInt8 := List.replicate 80 0

/-- `Digits[i] = b`. -/
def setDigit (digits : List UInt8) (i : Usz) (b : UInt8) : Res (List UInt8) :=
  if i.toNat < digits.length then pure (digits.set i.toNat b) else .error (.bounds i)

/-- `CharSize` of the two functions below. -/
def digitSize (enc : Encoding) : Usz :=
  if enc.code ≥ Encoding.utf32le.code then 4 else if enc.code ≥ Encoding.utf16le.code then 2 else 1

/-- `Offset` of the two functions below. -/
def digitOffset (enc : Encoding) : Usz :=
  if enc = .utf32be then 3 else if enc = .utf16be then 1 else 0

/-- The loop over the digits, from the last to the first; `ptr` is the offset of `Ptr` in `Digits`.
The two functions below differ in the type of `Integer`. -/
def layDigits {ι : Type} (lastDigit : ι → UInt8) (rest : ι → ι)
    (ptr numDigits : Usz) (enc : Encoding) (integer : ι) (digits : List UInt8) : Res (List UInt8) :=
  whileLoop (fun (digit, integer, digits) =>
    if digit < numDigits then do
      let idx := (numDigits - digit - 1) * digitSize enc + digitOffset enc
      let digits ← setDigit digits (ptr + idx) (lastDigit integer)
      pure (.next (digit + 1, rest integer, digits))
    else pure (.done digits)) ((0 : Usz), integer, digits)

def appendUIntToString (integer : Usz) (dst : String) (m : Mem) : Res (Bool × String × Mem) := do
  let numDigits ← numberOfDigits integer.toInt64
  if dst.size - dst.writeCur ≥ numDigits then do
    let digits ← layDigits (fun n : Usz => (n % 10 + 48).toUInt8) (· / 10) 0 numDigits
        dst.enc integer emptyDigits
    appendToString (localObject digits) 0 (numDigits * digitSize dst.enc) dst m
  else pure (false, dst, m)

/-- The sign of a negative number, and the offset of `Ptr` behind it. -/
def laySign (integer : Isz) (enc : Encoding) (digits : List UInt8) : Res (Usz × List UInt8) :=
  if integer < 0 then do
    let digits ← setDigit digits (digitOffset enc) 45
    pure (digitSize enc, digits)
  else pure (0, digits)

/-- `Abs`, which leaves the least number as it is. -/
def abs (integer : Isz) : Isz := if integer < 0 then -integer else integer

def appendIntToString (integer : Isz) (dst : String) (m : Mem) : Res (Bool × String × Mem) := do
  let numDigits ← numberOfDigits integer
  let totalChars := numDigits + if integer < 0 then 1 else 0
  if dst.size - dst.writeCur ≥ totalChars then do
    let (ptr, digits) ← laySign integer dst.enc emptyDigits
    let digits ← layDigits (fun n : Isz => (n % 10 + 48).toUInt64.toUInt8)
      (· / 10) ptr numDigits dst.enc (abs integer) digits
    appendToString (localObject digits) 0 (totalChars * digitSize dst.enc) dst m
  else pure (false, dst, m)

end TinyBase
