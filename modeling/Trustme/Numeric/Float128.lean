/-
  Subject:   `Float128`, binary128 numbers computed with integers, as float128.cpp does it.

  * `unpack`: an encoding taken apart, a subnormal number normalised;
  * `roundPack`: one rounding for all operations: normalise, denormalise, round, encode;
  * `operatorAdd`, `operatorMul`, `operatorDiv`: each prepares a significand and a sticky bit.

  `none` is a failed BUG_ASSERT. Exponents stay far inside `i32`, they are integers here.
-/
import Mathlib.Data.Nat.Log

namespace Trustme.Numeric

/-- `class Float128`: the encoding. -/
structure Float128 where
  hi : BitVec 64
  lo : BitVec 64
  deriving DecidableEq, Repr

namespace Float128

/-! ## 1. Constants and encodings -/

def significandBits : Nat := 112

def exponentBias : Int := 16383

def minExponent : Int := -16382

def maxExponent : Int := 16383

def implicitBit : BitVec 128 := 1#128 <<< significandBits

def fractionMask : BitVec 128 := implicitBit - 1

inductive Kind where
  | zero
  | finite
  | infinity
  | notANumber
  deriving DecidableEq, Repr

structure Unpacked where
  kind : Kind
  negative : Bool
  exponent : Int
  significand : BitVec 128
  deriving DecidableEq, Repr

/-- The sign bit. -/
def signBit (negative : Bool) : BitVec 64 := if negative then 0x8000000000000000 else 0

/-- `packZero`. -/
def packZero (negative : Bool) : Float128 := ⟨signBit negative, 0⟩

/-- `Float128::infinity`. -/
def infinity (negative : Bool) : Float128 := ⟨signBit negative ||| 0x7FFF000000000000, 0⟩

/-- `canonicalNan`. -/
def canonicalNan : Float128 := ⟨0x7FFF800000000000, 0⟩

/-! ## 2. Bit lengths -/

/-- `__builtin_clzll`, of a number other than 0. -/
def builtinClzll (x : BitVec 64) : Nat := 63 - x.toNat.log2

/-- `clz128`; it asserts that the number is not 0. -/
def clz128 (v : BitVec 128) : Option Nat :=
  if v = 0 then none
  else
    let hi := (v >>> 64).setWidth 64
    if hi ≠ 0 then some (builtinClzll hi) else some (64 + builtinClzll (v.setWidth 64))

/-- `bitLength128`. -/
def bitLength128 (v : BitVec 128) : Option Nat :=
  if v = 0 then some 0 else (clz128 v).map (128 - ·)

/-! ## 3. Unpacking and packing -/

/-- `unpack`. -/
def unpack (f : Float128) : Option Unpacked := do
  let negative := f.hi >>> 63 != 0
  let biased := ((f.hi >>> 48).setWidth 32 &&& 0x7FFF#32).toNat
  let fraction : BitVec 128 := (f.hi &&& 0xFFFFFFFFFFFF#64).setWidth 128 <<< 64 |||
    f.lo.setWidth 128
  if biased = 0x7FFF then
    return ⟨if fraction ≠ 0 then .notANumber else .infinity, negative, 0, 0⟩
  else if biased = 0 then
    if fraction = 0 then return ⟨.zero, negative, 0, 0⟩
    else
      let shift := (← clz128 fraction) - (128 - (significandBits + 1))
      return ⟨.finite, negative, minExponent - shift, fraction <<< shift⟩
  else return ⟨.finite, negative, biased - exponentBias, fraction ||| implicitBit⟩

/-- The encoding that `packFinite` writes. -/
def encode (negative : Bool) (biased : Nat) (significand : BitVec 128) : Float128 :=
  ⟨signBit negative ||| BitVec.ofNat 64 biased <<< 48 ||| (significand >>> 64).setWidth 64,
    significand.setWidth 64⟩

/-- `packFinite`. -/
def packFinite (negative : Bool) (exponent : Int) (significand : BitVec 128) : Option Float128 :=
  if significand ≥ implicitBit then
    if minExponent ≤ exponent ∧ exponent ≤ maxExponent then
      some (encode negative (exponent + exponentBias).toNat (significand &&& fractionMask))
    else none
  else if exponent = minExponent then some (encode negative 0 significand)
  else none

/-! ## 4. Rounding -/

/-- `shiftRightSticky`: the shifted number and the sticky bit. -/
def shiftRightSticky (v : BitVec 128) (n : Nat) (sticky : Bool) : BitVec 128 × Bool :=
  if n = 0 then (v, sticky)
  else if n ≥ 128 then (0, sticky || v != 0)
  else (v >>> n, sticky || (v &&& (1#128 <<< n - 1)) != 0)

/-- A significand on the way to its encoding. -/
structure Rounding where
  significand : BitVec 128
  exponent : Int
  sticky : Bool

/-- `roundPack` brings the significand to two bits more than the fraction has. -/
def normalise (r : Rounding) (length : Nat) : Rounding :=
  if length > significandBits + 2 then
    let n := length - (significandBits + 2)
    let (s, sticky) := shiftRightSticky r.significand n r.sticky
    ⟨s, r.exponent + n, sticky⟩
  else if length < significandBits + 2 then
    let n := significandBits + 2 - length
    ⟨r.significand <<< n, r.exponent - n, r.sticky⟩
  else r

/-- Then an exponent below the smallest one up to it. -/
def denormalise (r : Rounding) : Rounding :=
  if r.exponent < minExponent then
    let shift := minExponent - r.exponent
    let (s, sticky) :=
      shiftRightSticky r.significand (if shift > 128 then 128 else shift.toNat) r.sticky
    ⟨s, minExponent, sticky⟩
  else r

/-- Then it drops the last bit. -/
def roundLast (r : Rounding) : BitVec 128 :=
  let roundBit := r.significand &&& 1 != 0
  let result := r.significand >>> 1
  if roundBit && (r.sticky || result &&& 1 != 0) then result + 1 else result

/-- And encodes what is left, with the carry of the rounding. -/
def finish (negative : Bool) (exponent : Int) (result : BitVec 128) : Option Float128 :=
  let carry := result >>> (significandBits + 1) != 0
  let result := if carry then result >>> 1 else result
  let exponent := if carry then exponent + 1 else exponent
  if result = 0 then some (packZero negative)
  else if exponent > maxExponent then some (infinity negative)
  else packFinite negative exponent result

/-- `roundPack`. -/
def roundPack (negative : Bool) (exponent : Int) (significand : BitVec 128) (sticky : Bool) :
    Option Float128 := do
  if significand = 0 then return packZero negative
  let length ← bitLength128 significand
  let r := denormalise (normalise ⟨significand, exponent, sticky⟩ length)
  finish negative r.exponent (roundLast r)

/-! ## 5. The operations -/

/-- `operator-()`. -/
def operatorNeg (f : Float128) : Float128 := ⟨f.hi ^^^ 0x8000000000000000, f.lo⟩

/-- The sum of two finite numbers, the second of which has the smaller magnitude. -/
def addFinite (big small : Unpacked) : Option Float128 :=
  let bigSignificand := big.significand <<< 3
  let smallSignificand := small.significand <<< 3
  let diff := big.exponent - small.exponent
  let (smallSignificand, jam) :=
    shiftRightSticky smallSignificand (if diff > 128 then 128 else diff.toNat) false
  let smallSignificand := smallSignificand ||| (if jam then 1 else 0)
  if big.negative = small.negative then
    roundPack big.negative (big.exponent - 2) (bigSignificand + smallSignificand) false
  else
    let sum := bigSignificand - smallSignificand
    if sum = 0 then some (packZero false) else roundPack big.negative (big.exponent - 2) sum false

/-- `operator+`. -/
def operatorAdd (x y : Float128) : Option Float128 := do
  let a ← unpack x
  let b ← unpack y
  if a.kind = .notANumber ∨ b.kind = .notANumber then return canonicalNan
  if a.kind = .infinity ∨ b.kind = .infinity then
    if a.kind = .infinity ∧ b.kind = .infinity ∧ a.negative ≠ b.negative then return canonicalNan
    return if a.kind = .infinity then x else y
  if a.kind = .zero ∧ b.kind = .zero then return packZero (a.negative && b.negative)
  if a.kind = .zero then return y
  if b.kind = .zero then return x
  if a.exponent < b.exponent ∨ (a.exponent = b.exponent ∧ a.significand < b.significand) then
    addFinite b a
  else addFinite a b

/-- `operator-`. -/
def operatorSub (x y : Float128) : Option Float128 := operatorAdd x (operatorNeg y)

/-- `multiplyFull`: the four limbs of the product, the lowest first. -/
def multiplyFull (a b : BitVec 128) : BitVec 64 × BitVec 64 × BitVec 64 × BitVec 64 :=
  let limb (x : BitVec 128) : BitVec 64 := x.setWidth 64
  let wide (x : BitVec 64) : BitVec 128 := x.setWidth 128
  let a0 := limb a
  let a1 := limb (a >>> 64)
  let b0 := limb b
  let b1 := limb (b >>> 64)
  let p00 := wide a0 * wide b0
  let p01 := wide a0 * wide b1
  let p10 := wide a1 * wide b0
  let p11 := wide a1 * wide b1
  let mid := (p00 >>> 64) + wide (limb p01) + wide (limb p10)
  let high := p11 + (p01 >>> 64) + (p10 >>> 64) + (mid >>> 64)
  (limb p00, limb mid, limb high, limb (high >>> 64))

/-- The product of two finite numbers. -/
def mulFinite (a b : Unpacked) (negative : Bool) : Option Float128 := do
  let (p0, p1, p2, p3) := multiplyFull a.significand b.significand
  let high : BitVec 128 := p3.setWidth 128 <<< 64 ||| p2.setWidth 128
  let low : BitVec 128 := p1.setWidth 128 <<< 64 ||| p0.setWidth 128
  let keep := 128 - (← bitLength128 high)
  let high := high <<< keep ||| low >>> (128 - keep)
  let sticky := low <<< keep != 0
  roundPack negative (a.exponent + b.exponent - 96 - keep + 113) high sticky

/-- `operator*`. -/
def operatorMul (x y : Float128) : Option Float128 := do
  let a ← unpack x
  let b ← unpack y
  if a.kind = .notANumber ∨ b.kind = .notANumber then return canonicalNan
  let negative := a.negative != b.negative
  if a.kind = .infinity ∨ b.kind = .infinity then
    if a.kind = .zero ∨ b.kind = .zero then return canonicalNan
    return infinity negative
  if a.kind = .zero ∨ b.kind = .zero then return packZero negative
  mulFinite a b negative

/-- The loop of `operator/`: the quotient and the remainder after `n` bits. -/
def quotientSteps (divisor : BitVec 128) : Nat → BitVec 128 → BitVec 128 → BitVec 128 × BitVec 128
  | 0, quotient, remainder => (quotient, remainder)
  | n + 1, quotient, remainder =>
    if remainder ≥ divisor then
      quotientSteps divisor n (quotient <<< 1 ||| 1) ((remainder - divisor) <<< 1)
    else quotientSteps divisor n (quotient <<< 1) (remainder <<< 1)

/-- The quotient of two finite numbers. -/
def divFinite (a b : Unpacked) (negative : Bool) : Option Float128 :=
  let (quotient, remainder) := quotientSteps b.significand 115 0 a.significand
  roundPack negative (a.exponent - b.exponent - 1) quotient (remainder != 0)

/-- `operator/`. -/
def operatorDiv (x y : Float128) : Option Float128 := do
  let a ← unpack x
  let b ← unpack y
  if a.kind = .notANumber ∨ b.kind = .notANumber then return canonicalNan
  let negative := a.negative != b.negative
  if a.kind = .infinity then
    if b.kind = .infinity then return canonicalNan
    return infinity negative
  if b.kind = .infinity then return packZero negative
  if b.kind = .zero then
    if a.kind = .zero then return canonicalNan
    return infinity negative
  if a.kind = .zero then return packZero negative
  divFinite a b negative

end Float128

end Trustme.Numeric
