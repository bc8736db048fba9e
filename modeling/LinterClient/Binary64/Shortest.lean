import LinterClient.Binary64

/-!
Decimal text of binary64 numbers: the fewest digits that read back as the same value, and of those
the nearest to it.
-/

namespace LinterClient.Binary64

/-- A positive decimal number `digits * 10 ^ exponent`. -/
structure Decimal where
  digits : Nat
  exponent : Int
deriving DecidableEq

namespace Decimal

private def stripZeros : Nat → Nat → Int → Decimal
  | 0, digits, exponent => ⟨digits, exponent⟩
  | fuel + 1, digits, exponent =>
    if digits % 10 = 0 && digits ≠ 0 then stripZeros fuel (digits / 10) (exponent + 1)
    else ⟨digits, exponent⟩

def normal (d : Decimal) : Decimal :=
  stripZeros 20 d.digits d.exponent

end Decimal

/-- The reals that round to a finite positive value, as `(low, high, unit)`: both ends are multiples
of `2 ^ unit`, and they belong to the interval iff the significand is even. -/
private def roundingInterval (x : Binary64) : Nat × Nat × Int :=
  let m := x.significand
  let below := if m = 1 <<< 52 ∧ 1 < x.biasedExponent then 4 * m - 1 else 4 * m - 2
  (below, 4 * m + 2, x.exponent - 2)

/-- `a * 2 ^ e` and `c * 10 ^ k` brought to a common denominator. -/
private def common (a : Nat) (e : Int) (c : Nat) (k : Int) : Nat × Nat :=
  let left := a <<< e.toNat * Nat.pow 10 (-k).toNat
  let right := (c * Nat.pow 10 k.toNat) <<< (-e).toNat
  (left, right)

private def readsBack (x : Binary64) (c : Nat) (k : Int) : Bool :=
  let (low, high, unit) := x.roundingInterval
  let (l, v) := common low unit c k
  let (h, _) := common high unit c k
  if x.significand % 2 = 0 then l ≤ v && v ≤ h else l < v && v < h

/-- The decimal position of the leading digit of a finite positive value. -/
private def magnitude (x : Binary64) : Int :=
  let (n, d) := x.ratio
  ((Nat.toDigits 10 (n * Nat.pow 10 400 / d)).length : Int) - 401

private def onGrid (x : Binary64) (k : Int) : Option Decimal :=
  let (n, d) := x.ratio
  let num := n * Nat.pow 10 (-k).toNat
  let den := d * Nat.pow 10 k.toNat
  let c := num / den
  match x.readsBack c k, x.readsBack (c + 1) k with
  | false, false => none
  | true, false => some ⟨c, k⟩
  | false, true => some ⟨c + 1, k⟩
  | true, true =>
    let twice := 2 * (num % den)
    if twice < den then some ⟨c, k⟩
    else if den < twice then some ⟨c + 1, k⟩
    else some ⟨c + c % 2, k⟩

/-- The decimal with the fewest digits that reads back as the finite positive value. -/
def shortest (x : Binary64) : Decimal :=
  let top := x.magnitude
  let grids := (List.range 17).map fun (n : Nat) => top - Int.ofNat n
  ((grids.findSome? x.onGrid).getD ⟨0, 0⟩).normal

def digitText (n : Nat) : String :=
  String.ofList (Nat.toDigits 10 n)

def zeros (n : Nat) : String :=
  String.ofList (List.replicate n '0')

/-- Digits and a decimal point, never an exponent; a whole number has no point. -/
def positionalMagnitude (d : Decimal) : String :=
  let text := digitText d.digits
  if 0 ≤ d.exponent then text ++ zeros d.exponent.toNat
  else
    let places := (-d.exponent).toNat
    let padded := (zeros (places + 1 - text.length) ++ text).toList
    let whole := padded.length - places
    String.ofList (padded.take whole) ++ "." ++ String.ofList (padded.drop whole)

/-- Positional notation of a finite value, a whole number ending in `.0`. -/
def positional (x : Binary64) : String :=
  let sign := if x.isNegative then "-" else ""
  if x.isZero then sign ++ "0.0"
  else
    let text := positionalMagnitude x.shortest
    sign ++ text ++ (if x.isIntegral then ".0" else "")

/-- Positional notation from `1e-5` up to `1e16`, scientific notation outside. -/
def scientific (x : Binary64) : String :=
  let sign := if x.isNegative then "-" else ""
  if x.isZero then sign ++ "0.0"
  else
    let d := x.shortest
    let text := digitText d.digits
    let point := (text.length : Int) + d.exponent
    if -5 < point ∧ point ≤ 16 then x.positional
    else
      let mantissa := match text.toList with
        | [] => text
        | [_] => text
        | c :: rest => String.ofList (c :: '.' :: rest)
      let power := point - 1
      sign ++ mantissa ++ "e" ++ (if power < 0 then "-" else "+") ++ digitText power.natAbs

end LinterClient.Binary64
