import TinyBase.NumberRoundTrip

/-!
# Floating-point numbers as text (`AppendFloatToString`, `StringToFloat`)

The floating-point type and its operations are parameters. What the functions do with the numbers
they get from them is all in integers: the writers lay characters into the local array `Digits`, the
reader collects digits into three words.
-/

namespace TinyBase

/-- The floating-point operations that the functions use. -/
structure FloatOps (φ : Type) where
  lt : φ → φ → Bool
  neg : φ → φ
  add : φ → φ → φ
  sub : φ → φ → φ
  mul : φ → φ → φ
  div : φ → φ → φ
  /-- `Pow`. -/
  pow : φ → φ → φ
  /-- The value of an integer. -/
  ofInt : Int → φ
  /-- The casts to `isz`, `usz` and `char`. -/
  toIsz : φ → Isz
  toUsz : φ → Usz
  toChar : φ → UInt8
  /-- `DBL_MAX`. -/
  dblMax : φ

namespace FloatOps
variable {φ : Type} (F : FloatOps φ)

def abs (a : φ) : φ := if F.lt a (F.ofInt 0) then F.neg a else a

/-- `Pow(10, (f64)Places)`. -/
def powTen (places : Usz) : φ := F.pow (F.ofInt 10) (F.ofInt places.toNat)

/-- `Float < 0`, as a number. -/
def minus (float : φ) : Usz := if F.lt float (F.ofInt 0) then 1 else 0

end FloatOps

/-! ### Writing -/

/-- `char Digits[128] = {0}`. -/
def emptyFloatDigits : List UInt8 := zeros 128

/-- The digit of a word, and of a signed one. -/
def uszDigit (n : Usz) : UInt8 := (n % 10 + 48).toUInt8

def iszDigit (n : Isz) : UInt8 := (n % 10 + 48).toUInt64.toUInt8

/-- The sign of a negative number, and the offset of `Ptr` behind it. -/
def layMinus (minus : Bool) (enc : Encoding) (digits : List UInt8) : Res (Usz × List UInt8) :=
  if minus then do
    let digits ← setDigit digits (digitOffset enc) 45
    pure (digitSize enc, digits)
  else pure (0, digits)

/-- The dot and the digits behind it, if there are any. -/
def layFraction (decimal clipped ptr : Usz) (enc : Encoding) (digits : List UInt8) :
    Res (List UInt8) :=
  if clipped > 0 then do
    let digits ← setDigit digits (ptr + digitOffset enc) 46
    layDigits uszDigit (· / 10) (ptr + digitSize enc) clipped enc decimal digits
  else pure digits

/-- The digits behind the dot, or a zero, and `Ptr` behind them. -/
def layDecimals (decimal decimalPlaces ptr : Usz) (enc : Encoding) (digits : List UInt8) :
    Res (Usz × List UInt8) :=
  if decimalPlaces > 0 then do
    let digits ← layDigits uszDigit (· / 10) ptr decimalPlaces enc decimal digits
    pure (ptr + decimalPlaces * digitSize enc, digits)
  else do
    let digits ← setDigit digits (ptr + digitOffset enc) 48
    pure (ptr + digitSize enc, digits)

/-- `e`, the sign of the exponent and its three digits. -/
def layExponent (exp : Usz) (expSign : Isz) (ptr : Usz) (enc : Encoding) (digits : List UInt8) :
    Res (List UInt8) := do
  let digits ← setDigit digits (ptr + digitOffset enc) 101
  let digits ← setDigit digits (ptr + (digitSize enc + digitOffset enc))
      (if expSign > 0 then 43 else 45)
  layDigits uszDigit (· / 10) (ptr + digitSize enc * 2) 3 enc exp digits

section
variable {φ : Type} (F : FloatOps φ)

/-- `Hi` of `_AppendFloatToStringRegular`. -/
def floatHi (float : φ) : Isz := abs (F.toIsz float)

/-- `DecimalPlaces` after the clipping of `_AppendFloatToStringRegular`. -/
def clippedPlaces (numDigits minus decimalPlaces : Usz) : Usz :=
  if decimalPlaces > 0 then
    let spaceLeftForDecimal := 20 - numDigits - minus - 1
    if spaceLeftForDecimal ≤ decimalPlaces then spaceLeftForDecimal else decimalPlaces
  else decimalPlaces

/-- `Decimal` of `_AppendFloatToStringRegular`. -/
def floatDecimal (float : φ) (decimalPlaces : Usz) : Usz :=
  let lo := F.sub float (F.ofInt (floatHi F float).toInt)
  F.toUsz (F.mul (F.abs lo) (F.powTen decimalPlaces))

/-- `_AppendFloatToStringRegular`. -/
def appendFloatToStringRegular (float : φ) (decimalPlaces : Usz) (dst : String) (m : Mem) :
    Res (Bool × String × Mem) := do
  let hi := floatHi F float
  let numDigits ← numberOfDigits hi
  let totalChars := numDigits + F.minus float
  let clipped := clippedPlaces numDigits (F.minus float) decimalPlaces
  let totalChars := if decimalPlaces > 0 then totalChars + (clipped + 1) else totalChars
  let charSize := digitSize dst.enc
  if dst.size - dst.writeCur ≥ totalChars * charSize then do
    let (ptr, digits) ← layMinus (F.lt float (F.ofInt 0)) dst.enc emptyFloatDigits
    let digits ← layDigits iszDigit (· / 10) ptr numDigits dst.enc hi digits
    let digits ← layFraction (floatDecimal F float clipped) clipped (ptr + numDigits * charSize)
        dst.enc digits
    appendToString (localObject digits) 0 (totalChars * charSize) dst m
  else pure (false, dst, m)

/-- `while (Float < 1) { Float *= 10; Exp++; }`. -/
def scaleUp (float : φ) : Res (φ × Usz) :=
  whileLoop (fun (float, exp) =>
    if F.lt float (F.ofInt 1) then pure (.next (F.mul float (F.ofInt 10), exp + 1))
    else pure (.done (float, exp))) (float, (0 : Usz))

/-- `while (Float > 10) { Float /= 10; Exp++; }`. -/
def scaleDown (float : φ) : Res (φ × Usz) :=
  whileLoop (fun (float, exp) =>
    if F.lt (F.ofInt 10) float then pure (.next (F.div float (F.ofInt 10), exp + 1))
    else pure (.done (float, exp))) (float, (0 : Usz))

/-- `Float`, `Exp` and `ExpSign` after the loops of `_AppendFloatToStringInSN`. -/
def scaled (float : φ) : Res (φ × Usz × Isz) := do
  let float := if F.lt float (F.ofInt 0) then F.mul float (F.ofInt (-1)) else float
  if F.lt float (F.ofInt 1) then do
    let (float, exp) ← scaleUp F float
    pure (float, exp, -1)
  else do
    let (float, exp) ← scaleDown F float
    pure (float, exp, 1)

/-- `Decimal` of `_AppendFloatToStringInSN`. -/
def scaledDecimal (float : φ) (decimalPlaces : Usz) : Usz :=
  let lo := F.sub float (F.ofInt (F.toUsz float).toNat)
  F.toUsz (F.mul (F.abs lo) (F.powTen decimalPlaces))

/-- `_AppendFloatToStringInSN`. -/
def appendFloatToStringInSN (float : φ) (decimalPlaces : Usz) (dst : String) (m : Mem) :
    Res (Bool × String × Mem) := do
  let totalChars := F.minus float + 2 + decimalPlaces + 5
  let charSize := digitSize dst.enc
  let offset := digitOffset dst.enc
  if dst.size - dst.writeCur ≥ totalChars * charSize then do
    let (ptr, digits) ← layMinus (F.lt float (F.ofInt 0)) dst.enc emptyFloatDigits
    let (float, exp, expSign) ← scaled F float
    let digits ← setDigit digits (ptr + offset) (F.toChar float + 48)
    let digits ← setDigit digits (ptr + (charSize + offset)) 46
    let (ptr, digits) ← layDecimals (scaledDecimal F float decimalPlaces) decimalPlaces
        (ptr + charSize * 2) dst.enc digits
    let digits ← layExponent exp expSign ptr dst.enc digits
    appendToString (localObject digits) 0 (totalChars * charSize) dst m
  else pure (false, dst, m)

def appendFloatToString (float : φ) (decimalPlaces : Usz) (inScientificNotation : Bool)
    (dst : String) (m : Mem) : Res (Bool × String × Mem) :=
  if inScientificNotation then appendFloatToStringInSN F float decimalPlaces dst m
  else appendFloatToStringRegular F float decimalPlaces dst m

end

/-! ### Reading -/

/-- The variables that the loop of `StringToFloat` changes. -/
structure FloatState where
  exponentSign : Isz := 1
  integer : Usz := 0
  fraction : Usz := 0
  exponent : Usz := 0
  /-- 0 (Integer), 1 (Fractional), 2 (Exponent). -/
  parsingStage : Usz := 0
  fractionCount : Usz := 0
deriving DecidableEq

/-- The body of the loop of `StringToFloat`. -/
def floatStep (s : FloatState) (char : MbChar) : Option FloatState :=
  if s.parsingStage = 0 then
    if char = 46 then some { s with parsingStage := 1 }
    else if char = 101 then some { s with parsingStage := 2 }
    else if charIsDigit char then some { s with integer := s.integer * 10 + char.toUInt64 - 48 }
    else none
  else if s.parsingStage = 1 then
    if char = 101 then some { s with parsingStage := 2 }
    else if charIsDigit char then
      some { s with fraction := s.fraction * 10 + char.toUInt64 - 48,
                    fractionCount := s.fractionCount + 1 }
    else none
  else
    if char = 45 then some { s with exponentSign := -1 }
    else if charIsDigit char then some { s with exponent := s.exponent * 10 + char.toUInt64 - 48 }
    else none

/-- `StringToFloat` up to the end of its loop: `NumberSign` and the other variables, or nothing
where it returns `DBL_MAX`. -/
def readFloat (src : String) (m : Mem) : Res (Option (Isz × FloatState)) := do
  let char ← getNextChar m.read src.base src.enc
  let numberSign : Isz := if char = 45 then -1 else 1
  let idx : Usz := if char = 45 then digitSize src.enc else 0
  let state ← parseChars floatStep src m idx {}
  pure (state.map fun s => (numberSign, s))

def stringToFloat {φ : Type} (F : FloatOps φ) (src : String) (m : Mem) : Res φ := do
  match ← readFloat src m with
  | none => pure F.dblMax
  | some (numberSign, s) =>
    let result := F.mul (F.ofInt numberSign.toInt)
      (F.add (F.ofInt s.integer.toNat)
        (F.div (F.ofInt s.fraction.toNat) (F.powTen s.fractionCount)))
    pure (F.mul result
      (F.pow (F.ofInt 10) (F.mul (F.ofInt s.exponent.toNat) (F.ofInt s.exponentSign.toInt))))

end TinyBase
