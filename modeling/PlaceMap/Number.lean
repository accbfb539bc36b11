/-
Floating-point numbers of 64 bits, as exact values `m · 2^q`: rounding a decimal to the nearest one,
and the fewest decimal digits that identify one. All arithmetic is exact, over natural numbers.
-/
namespace PlaceMap

/-- A floating-point number: `± m · 2^q`, an infinity, or no number. A finite value has either
`2^52 ≤ m < 2^53`, or `m < 2^52` and the least exponent. -/
inductive Number where
  | finite (negative : Bool) (m : Nat) (q : Int)
  | infinite (negative : Bool)
  | nan
  deriving DecidableEq, Repr

namespace Number

/-- The least exponent of a finite value. -/
def minExponent : Int := -1074

/-- The greatest exponent of a finite value. -/
def maxExponent : Int := 971

/-- `a · 2^k` as a pair of a numerator and a denominator factor. -/
def scale (base : Nat) (k : Int) : Nat × Nat :=
  if 0 ≤ k then (Nat.pow base k.toNat, 1) else (1, Nat.pow base (-k).toNat)

/-- The greatest `k` with `2^k ≤ num / den`, for positive numbers. -/
def floorLog2 (num den : Nat) : Int :=
  let k : Int := (num.log2 : Int) - den.log2
  let (up, down) := scale 2 k
  if up * den ≤ num * down then k else k - 1

/-- The quotient rounded to the nearest integer; a half goes to the even neighbour. -/
def roundDiv (num den : Nat) : Nat :=
  let quotient := num / den
  let rest := 2 * (num % den)
  if rest < den then quotient
  else if rest = den then quotient + quotient % 2
  else quotient + 1

/-- The number nearest to `num / den`, of the given sign. -/
def ofQuotient (negative : Bool) (num den : Nat) : Number :=
  if num = 0 then .finite negative 0 minExponent
  else
    let q := max minExponent (floorLog2 num den - 52)
    let (up, down) := scale 2 q
    let m := roundDiv (num * down) (den * up)
    let (m, q) := if m = Nat.pow 2 53 then (Nat.pow 2 52, q + 1) else (m, q)
    if maxExponent < q then .infinite negative else .finite negative m q

/-- The number nearest to `± digits · 10^exponent`. Values far outside the range are settled by
their number of digits. -/
def ofDecimal (negative : Bool) (digits : Nat) (exponent : Int) : Number :=
  let size : Int := (Nat.toDigits 10 digits).length + exponent
  if digits = 0 ∨ size < -400 then .finite negative 0 minExponent
  else if 400 < size then .infinite negative
  else
    let (up, down) := scale 10 exponent
    ofQuotient negative (digits * up) down

/-- The value as an integer, if it is one. -/
def toInt? : Number → Option Int
  | .finite negative m q =>
    let (up, down) := scale 2 q
    if (m * up) % down = 0 then
      let n : Int := (m * up / down : Nat)
      some (if negative then -n else n)
    else none
  | _ => none

/-- Whether the decimal `n · 10^k` lies in the interval of reals that round to `m · 2^q`. The ends
belong to it when `m` is even; the lower half is narrower at a power of two. -/
def identifies (m : Nat) (q : Int) (n : Nat) (k : Int) : Bool :=
  let low := if m = Nat.pow 2 52 ∧ minExponent < q then 4 * m - 1 else 4 * m - 2
  let high := 4 * m + 2
  let (up10, down10) := scale 10 k
  let (up2, down2) := scale 2 (q - 2)
  let value := n * up10 * down2
  let unit := up2 * down10
  if m % 2 = 0 then low * unit ≤ value ∧ value ≤ high * unit
  else low * unit < value ∧ value < high * unit

/-- The multiple of `10^k` that identifies `m · 2^q`, if there is one; the nearer of two. -/
def onGrid (m : Nat) (q k : Int) : Option (Nat × Int) :=
  let (up10, down10) := scale 10 k
  let (up2, down2) := scale 2 q
  let num := m * up2 * down10
  let den := down2 * up10
  let n := num / den
  let lower := identifies m q n k
  let upper := identifies m q (n + 1) k
  let rest := 2 * (num % den)
  if lower && (!upper || rest < den || (rest = den && n % 2 = 0)) then some (n, k)
  else if upper then some (n + 1, k)
  else none

/-- The fewest digits `n` and the exponent `k` for which `n · 10^k` identifies `m · 2^q`: the first
hit on grids that grow finer. -/
def shortest (m : Nat) (q : Int) : Nat × Int :=
  if m = 0 then (0, 0)
  else ((List.range 640).findSome? fun (i : Nat) => onGrid m q (309 - (i : Int))).getD (m, q)

/-- The digits of a natural number. -/
def digits (n : Nat) : List Char := Nat.toDigits 10 n

/-- A list of zeros. -/
def zeros (n : Nat) : List Char := List.replicate n '0'

/-- Writes `n · 10^k` with a point, positionally for values from `10^-4` up to `10^16` and with a
signed exponent of at least two digits otherwise. A whole number keeps a zero after the point. -/
def layout (n : Nat) (k : Int) : List Char :=
  let ds := digits n
  let point : Int := ds.length + k
  if n = 0 then ['0', '.', '0']
  else if -4 < point ∧ point ≤ 16 then
    if point ≤ 0 then ['0', '.'] ++ zeros (-point).toNat ++ ds
    else if 0 ≤ k then ds ++ zeros k.toNat ++ ['.', '0']
    else ds.take point.toNat ++ '.' :: ds.drop point.toNat
  else
    let mantissa := if ds.length = 1 then ds else ds.take 1 ++ '.' :: ds.drop 1
    let e := point - 1
    let sign := if e < 0 then '-' else '+'
    let size := digits e.natAbs
    mantissa ++ 'e' :: sign :: (zeros (2 - size.length) ++ size)

/-- A number as text, with the fewest digits that identify it. -/
def toText : Number → String
  | .finite negative m q =>
    let (n, k) := shortest m q
    String.ofList ((if negative then ['-'] else []) ++ layout n k)
  | .infinite negative => if negative then "-inf" else "inf"
  | .nan => "nan"

end Number

end PlaceMap
