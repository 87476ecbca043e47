/-!
# Double-precision numbers

A finite double is a sign, a mantissa below `2 ^ 53` and an exponent of two.  Everything here is
exact arithmetic on natural numbers: `Binary64.ofRatio` rounds a quotient to the nearest double (a
tie goes to the even mantissa), and `Binary64.shortest` finds the fewest decimal digits that read
back as the same double, the nearest such number if there are two.
-/

namespace Pathwise

/-- A double: `finite negative m e` is `m * 2 ^ e` with a sign. -/
inductive Binary64 where
  | nan
  | infinite (negative : Bool)
  | finite (negative : Bool) (mantissa : Nat) (exponent : Int)
deriving Repr, DecidableEq, Inhabited

/-- The quotient rounded to the nearest natural number, a half to the even neighbour. -/
def roundHalfEven (num den : Nat) : Nat :=
  let q := num / den
  let r := num % den
  if 2 * r < den then q
  else if den < 2 * r then q + 1
  else if q % 2 = 0 then q else q + 1

namespace Binary64

def leastExponent : Int := -1074

def greatestExponent : Int := 971

/-- `num / (den * 2 ^ e)` as a fraction. -/
def scaled (num den : Nat) (e : Int) : Nat × Nat :=
  if 0 ≤ e then (num, den * Nat.pow 2 e.toNat) else (num * Nat.pow 2 (-e).toNat, den)

/-- The double nearest to `num / den`. -/
def ofRatio (negative : Bool) (num den : Nat) : Binary64 :=
  if num = 0 then finite negative 0 leastExponent
  else
    let guess : Int := (num.log2 : Int) - (den.log2 : Int) - 52
    let (n, d) := scaled num den guess
    let e := max leastExponent (if n / d < Nat.pow 2 52 then guess - 1 else guess)
    let (n, d) := scaled num den e
    let m := roundHalfEven n d
    let (m, e) := if m = Nat.pow 2 53 then (Nat.pow 2 52, e + 1) else (m, e)
    if greatestExponent < e then infinite negative else finite negative m e

/-- The double nearest to `digits * 10 ^ scale`. -/
def ofDecimal (negative : Bool) (digits : Nat) (scale : Int) : Binary64 :=
  if 0 ≤ scale then ofRatio negative (digits * Nat.pow 10 scale.toNat) 1
  else ofRatio negative digits (Nat.pow 10 (-scale).toNat)

/-- Whether `d * 10 ^ k` rounds to the double `m * 2 ^ e`, compared in quarters of the last mantissa
place. -/
def roundsTo (m : Nat) (e : Int) (d : Nat) (k : Int) : Bool :=
  let low := if m = Nat.pow 2 52 && leastExponent < e then 4 * m - 1 else 4 * m - 2
  let high := 4 * m + 2
  -- bring `d * 10 ^ k` and `_ * 2 ^ (e - 2)` to whole numbers
  let e := e - 2
  let tens := if 0 ≤ k then (Nat.pow 10 k.toNat, 1) else (1, Nat.pow 10 (-k).toNat)
  let twos := if 0 ≤ e then (Nat.pow 2 e.toNat, 1) else (1, Nat.pow 2 (-e).toNat)
  let x := d * tens.1 * twos.2
  let lo := low * twos.1 * tens.2
  let hi := high * twos.1 * tens.2
  if m % 2 = 0 then lo ≤ x && x ≤ hi else lo < x && x < hi

/-- The greatest `k` with `10 ^ k ≤ num / den`, searched downwards from `k`. -/
def decimalExponent (num den : Nat) : Nat → Int → Int
  | 0, k => k
  | fuel + 1, k =>
    let fits := if 0 ≤ k then Nat.pow 10 k.toNat * den ≤ num else den ≤ num * Nat.pow 10 (-k).toNat
    if fits then k else decimalExponent num den fuel (k - 1)

/-- The decimal of `digits` more places that reads back as the double, if there is one. -/
def shortestFrom (m : Nat) (e : Int) (num den : Nat) (top : Int) : Nat → Nat → Nat × Int
  | 0, _ => (0, 0)
  | fuel + 1, digits =>
    let k := top - digits + 1
    let (n, d) := if 0 ≤ k then (num, den * Nat.pow 10 k.toNat)
      else (num * Nat.pow 10 (-k).toNat, den)
    let below := n / d
    let fitsBelow := roundsTo m e below k
    let fitsAbove := roundsTo m e (below + 1) k
    if fitsBelow && fitsAbove then
      (if 2 * (n % d) < d then below
       else if d < 2 * (n % d) then below + 1
       else if below % 2 = 0 then below else below + 1, k)
    else if fitsBelow then (below, k)
    else if fitsAbove then (below + 1, k)
    else shortestFrom m e num den top fuel (digits + 1)

/-- The fewest digits, as a number and its power of ten, that read back as the double `m * 2 ^
e`. -/
def shortest (m : Nat) (e : Int) : Nat × Int :=
  let (num, den) := if 0 ≤ e then (m * Nat.pow 2 e.toNat, 1) else (m, Nat.pow 2 (-e).toNat)
  let top := decimalExponent num den 700 310
  shortestFrom m e num den top 17 1

def trimmedDigits (n : Nat) : List Char :=
  ((Nat.toDigits 10 n).reverse.dropWhile (· == '0')).reverse

/--
The usual text of a double: positional from `0.0001` up to `10 ^ 16`, with a point always, and with
a signed exponent of at least two digits otherwise.
-/
def toText : Binary64 → String
  | nan => "NaN"
  | infinite neg => if neg then "-Infinity" else "Infinity"
  | finite neg m e =>
    let sign := if neg then "-" else ""
    if m = 0 then sign ++ "0.0"
    else
      let (d, k) := shortest m e
      let all := Nat.toDigits 10 d
      -- the exponent of the first digit
      let x : Int := k + all.length - 1
      let ds := trimmedDigits d
      if -4 ≤ x && x < 16 then
        if x < 0 then
          sign ++ "0." ++ String.ofList (List.replicate (-x - 1).toNat '0' ++ ds)
        else
          let whole := x.toNat + 1
          let front := ds.take whole ++ List.replicate (whole - ds.length) '0'
          let back := ds.drop whole
          sign ++ String.ofList front ++ "." ++ (if back.isEmpty then "0" else String.ofList back)
      else
        let mant := match ds with
          | [] => ""
          | [c] => String.singleton c
          | c :: cs => String.ofList (c :: '.' :: cs)
        let pad (n : Nat) : String := if n < 10 then "0" ++ toString n else toString n
        sign ++ mant ++ (if x < 0 then "e-" ++ pad (-x).toNat else "e+" ++ pad x.toNat)

end Binary64

end Pathwise
