/-!
IEEE 754 binary64 numbers as bit patterns.

A finite value is `significand * 2 ^ exponent`; every operation rounds the exact rational result to
the nearest value, a tie to the even one, so all arithmetic is arithmetic on natural numbers.
-/

namespace LinterClient

/-- A binary64 number, held as its bit pattern. -/
structure Binary64 where
  bits : UInt64
deriving DecidableEq

namespace Binary64

def isNegative (x : Binary64) : Bool :=
  x.bits.toNat >>> 63 = 1

def biasedExponent (x : Binary64) : Nat :=
  x.bits.toNat >>> 52 % 2048

def fraction (x : Binary64) : Nat :=
  x.bits.toNat % 1 <<< 52

def isFinite (x : Binary64) : Bool :=
  x.biasedExponent < 2047

def isNaN (x : Binary64) : Bool :=
  x.biasedExponent = 2047 && x.fraction ≠ 0

/-- The integer factor of a finite value. -/
def significand (x : Binary64) : Nat :=
  if x.biasedExponent = 0 then x.fraction else x.fraction + 1 <<< 52

/-- The power of two that scales the significand of a finite value. -/
def exponent (x : Binary64) : Int :=
  if x.biasedExponent = 0 then -1074 else (x.biasedExponent : Int) - 1075

def isZero (x : Binary64) : Bool :=
  x.biasedExponent = 0 && x.fraction = 0

def negate (x : Binary64) : Binary64 :=
  ⟨x.bits ^^^ 0x8000000000000000⟩

def infinity : Binary64 := ⟨0x7ff0000000000000⟩

def nan : Binary64 := ⟨0x7ff8000000000000⟩

def zero : Binary64 := ⟨0⟩

/-- The quotient rounded to the nearest integer, a half to the even neighbour. -/
def roundHalfEven (num den : Nat) : Nat :=
  let q := num / den
  let twice := 2 * (num % den)
  if twice < den then q else if den < twice then q + 1 else q + q % 2

/-- `num / (den * 2 ^ e)` as a pair of natural numbers. -/
private def scaled (num den : Nat) (e : Int) : Nat × Nat :=
  if 0 ≤ e then (num, den <<< e.toNat) else (num <<< (-e).toNat, den)

/-- The value nearest to `num / den`; too large a quotient is infinite. -/
def ofRatio (num den : Nat) : Binary64 :=
  if num = 0 then zero
  else
    let guess : Int := (num.log2 : Int) - den.log2 - 53
    let (n, d) := scaled num den guess
    let e := max (-1074) (if 1 <<< 53 ≤ n / d then guess + 1 else guess)
    let (n, d) := scaled num den e
    let q := roundHalfEven n d
    let pattern := if q < 1 <<< 52 then q else (e + 1075).toNat <<< 52 + (q - 1 <<< 52)
    if pattern < 2047 <<< 52 then ⟨UInt64.ofNat pattern⟩ else infinity

def ofNat (n : Nat) : Binary64 :=
  ofRatio n 1

/-- The value nearest to `digits * 10 ^ exponent`. -/
def ofDecimal (digits : Nat) (exponent : Int) : Binary64 :=
  if 0 ≤ exponent then ofRatio (digits * Nat.pow 10 exponent.toNat) 1
  else ofRatio digits (Nat.pow 10 (-exponent).toNat)

/-- The magnitude of a finite value as a quotient. -/
def ratio (x : Binary64) : Nat × Nat :=
  if 0 ≤ x.exponent then (x.significand <<< x.exponent.toNat, 1)
  else (x.significand, 1 <<< (-x.exponent).toNat)

/-- The product of two finite magnitudes. -/
def mulMagnitude (x y : Binary64) : Binary64 :=
  ofRatio (x.ratio.1 * y.ratio.1) (x.ratio.2 * y.ratio.2)

/-- The quotient of two finite magnitudes, the second not zero. -/
def divMagnitude (x y : Binary64) : Binary64 :=
  ofRatio (x.ratio.1 * y.ratio.2) (x.ratio.2 * y.ratio.1)

/-- A finite value without a fractional part. -/
def isIntegral (x : Binary64) : Bool :=
  x.ratio.1 % x.ratio.2 = 0

end Binary64

end LinterClient
