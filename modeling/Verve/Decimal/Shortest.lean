/-!
# Shortest decimal text of a double

A float literal is read as the double nearest to its decimal value, and a double is written
back with as few significant digits as read back to it. Both steps are exact integer
arithmetic on the double's mantissa and exponent.

| step | rule |
| --- | --- |
| `Binary64.ofDecimal n s` | the double nearest to `n / 10^s`; a tie goes to the even mantissa; past the largest finite double, infinity |
| `Binary64.shortest` | the fewest significant digits whose value lies in the interval of reals that round to the double (its ends included when the mantissa is even); of the two candidates on that grid, the nearer; of two equally near, the larger |
| `positional` | no exponent, no zero at the end of a fraction, no point in a whole number |

Infinity is written `inf`; zero is written `0`.

The search tries the grids of 1, 2, … digits below the leading digit; on each it needs only
the value's two neighbours, because a grid point inside the interval brings the neighbour on
its side inside as well.
-/

namespace Verve
namespace Decimal

/-- A double that is not negative: `m · 2^q` with `m < 2^53` and `-1074 ≤ q ≤ 971`, or
infinity. -/
inductive Binary64 where
  | finite (m : Nat) (q : Int)
  | infinite
  deriving DecidableEq, Inhabited

/-- `a / b` rounded to the nearest integer, a tie to the even one. -/
def roundHalfEven (a b : Nat) : Nat :=
  let q := a / b
  let r := a % b
  if 2 * r < b then q else if b < 2 * r then q + 1 else if q % 2 = 0 then q else q + 1

/-- Whether `2^t ≤ n / d`. -/
def powTwoLe (n d : Nat) (t : Int) : Bool :=
  if 0 ≤ t then d * Nat.pow 2 t.toNat ≤ n else d ≤ n * Nat.pow 2 (-t).toNat

/-- `⌊log₂ (n / d)⌋` for positive `n` and `d`: it is one of the two exponents next to the
difference of the binary lengths. -/
def log2Frac (n d : Nat) : Int :=
  let t : Int := (Nat.log2 n : Int) - Nat.log2 d
  if powTwoLe n d t then t else t - 1

/-- The number of decimal digits of a positive integer. -/
def decimalLength (n : Nat) : Nat := (Nat.toDigits 10 n).length

namespace Binary64

/-- The double nearest to `n / 10^s`. -/
def ofDecimal (n s : Nat) : Binary64 :=
  if n = 0 then .finite 0 (-1074) else
    let d := Nat.pow 10 s
    let q0 := max (log2Frac n d - 52) (-1074)
    let m :=
      if 0 ≤ q0 then roundHalfEven n (d * Nat.pow 2 q0.toNat)
      else roundHalfEven (n * Nat.pow 2 (-q0).toNat) d
    let (m, q) := if m = Nat.pow 2 53 then (Nat.pow 2 52, q0 + 1) else (m, q0)
    if 971 < q then .infinite else .finite m q

/-- The point of the value's grid of `k` significant digits that the shortest text picks, if
one of its two neighbours on that grid reads back to the double. `num / den` is the value,
`lo / den` and `hi / den` the ends of its rounding interval, `t` its leading decimal
exponent. -/
def gridPick (num lo hi den : Nat) (incl : Bool) (t : Int) (k : Nat) : Option (Nat × Int) :=
  let e := t - k + 1
  -- c · 10^e compared with x / den is c · p compared with x · s
  let p := if 0 ≤ e then Nat.pow 10 e.toNat * den else den
  let s := if 0 ≤ e then 1 else Nat.pow 10 (-e).toNat
  let v := num * s
  let inside (c : Nat) : Bool :=
    if incl then lo * s ≤ c * p && c * p ≤ hi * s else lo * s < c * p && c * p < hi * s
  let cl := v / p
  let ch := cl + 1
  match inside cl, inside ch with
  | true, true => if v - cl * p < ch * p - v then some (cl, e) else some (ch, e)
  | true, false => some (cl, e)
  | false, true => some (ch, e)
  | false, false => none

/-- Drops zeros at the end of `c`, raising the exponent `e` for each. -/
def stripZeros (c : Nat) (e : Int) : Nat × Int :=
  if h : 0 < c ∧ c % 10 = 0 then stripZeros (c / 10) (e + 1) else (c, e)
termination_by c
decreasing_by omega

/-- `c · 10^e` in positional notation. -/
def positional (c : Nat) (e : Int) : String :=
  let (c, e) := stripZeros c e
  let ds := Nat.toDigits 10 c
  if 0 ≤ e then String.ofList (ds ++ List.replicate e.toNat '0')
  else
    let k := (-e).toNat
    let n := ds.length
    if k < n then String.ofList (ds.take (n - k) ++ '.' :: ds.drop (n - k))
    else String.ofList ('0' :: '.' :: List.replicate (k - n) '0' ++ ds)

/-- The shortest text of a double. -/
def shortest : Binary64 → String
  | .infinite => "inf"
  | .finite m q =>
    if m = 0 then "0" else
      let up := if 0 ≤ q then Nat.pow 2 q.toNat else 1
      let down := if 0 ≤ q then 1 else Nat.pow 2 (-q).toNat
      -- the value is 4m·up / 4down; the interval reaches half a unit up, and down also half
      -- a unit, or a quarter at the lowest mantissa of a binade
      let lowGap := if m = Nat.pow 2 52 ∧ -1074 < q then 1 else 2
      let num := 4 * m * up
      let den := 4 * down
      let t : Int := (decimalLength (m * up * Nat.pow 10 400 / down) : Int) - 1 - 400
      let incl := m % 2 = 0
      match (List.range 17).findSome? fun i =>
          gridPick num ((4 * m - lowGap) * up) ((4 * m + 2) * up) den incl t (i + 1) with
      | some (c, e) => positional c e
      | none => positional (m * up) 0

end Binary64

/-- The text of the double nearest to `n / 10^s`. -/
def floatText (n s : Nat) : String := (Binary64.ofDecimal n s).shortest

example : floatText 30 1 = "3" ∧ floatText 110 2 = "1.1" ∧ floatText 1 1 = "0.1" := by
  decide +kernel

end Decimal
end Verve
