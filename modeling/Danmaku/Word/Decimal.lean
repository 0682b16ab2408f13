import Danmaku.Word.Basic

/-!
# The decimal text of a word

A finite word is written with the fewest decimal digits that read back as the same word; of two
such numbers the nearer one is taken, and of two equally near ones the larger. The digits stand
in place, without an exponent, and a whole number has no point.

Reading rounds to the nearest word, so the numbers that read back as a word are an interval
around it, `Word.Interval`: it reaches half way to the neighbour words, and its ends belong to it
if the significand is even. `Interval.onGrid?` looks for a multiple of a power of ten in it, and
`Interval.shortest` takes the largest power of ten that has one.
-/

namespace Danmaku.Word

/-- A power of ten. -/
def tenTo (n : Nat) : Nat := Nat.pow 10 n

/-- The numbers that read back as one positive word, counted in quarters of a unit. -/
structure Interval where
  /-- The lower end. -/
  low : Nat
  /-- The word itself. -/
  value : Nat
  /-- The upper end. -/
  high : Nat
  /-- Whether the ends belong to the interval. -/
  closed : Bool

/-- The interval of a positive finite word. Below a power of two the words lie twice as dense,
so that the lower end is nearer, except where the density no longer changes. -/
def interval (w : Word) : Interval where
  low := 4 * w.units - (if w.fractionField = 0 ∧ 1 < w.exponentField then 1 else 2) <<< w.scale
  value := 4 * w.units
  high := 4 * w.units + 2 <<< w.scale
  closed := w.fractionField % 2 == 0

namespace Interval

/-- A number of grid steps, scaled by `step`, against the interval scaled by `by10`. -/
def holds (i : Interval) (by10 step n : Nat) : Bool :=
  if i.closed then decide (i.low * by10 ≤ n * step ∧ n * step ≤ i.high * by10)
  else decide (i.low * by10 < n * step ∧ n * step < i.high * by10)

/-- The multiple of a power of ten that lies in the interval, as a count of that power: one of the
value's two neighbours on the grid, the nearer one if both lie in it, the upper one if they are
equally near. -/
def onGrid? (i : Interval) (power : Int) : Option Nat :=
  let step := tenTo power.toNat <<< 151
  let by10 := tenTo (-power).toNat
  let below := i.value * by10 / step
  let rest := i.value * by10 - below * step
  let above := if rest = 0 then below else below + 1
  match i.holds by10 step below, i.holds by10 step above with
  | true, true => some (if 2 * rest < step then below else above)
  | true, false => some below
  | false, true => some above
  | false, false => none

/-- The shortest number in the interval, as a count and a power of ten, looking at the powers
from `10 ^ (k - 149)` down. Every word is a whole number of `10 ^ -149`, where the search ends. -/
def shortestFrom (i : Interval) : Nat → Nat × Int
  | 0 => ((i.value * tenTo 149) >>> 151, -149)
  | k + 1 =>
    let power := (k + 1 : Int) - 149
    match i.onGrid? power with
    | some n => (n, power)
    | none => i.shortestFrom k

/-- The shortest number in the interval. The first power tried is above the value: its binary
logarithm, times the decimal logarithm of two, bounds the decimal one. -/
def shortest (i : Interval) : Nat × Int :=
  i.shortestFrom ((i.value.log2 + 1) * 30103 / 100000 + 107)

end Interval

/-- The digits of `n` times a power of ten, in place. -/
def positional (n : Nat) (power : Int) : String :=
  if 0 ≤ power then toString (n * tenTo power.toNat)
  else
    let places := (-power).toNat
    let digits := (n % tenTo places + tenTo places).repr.toList.drop 1
    let kept := (digits.reverse.dropWhile (· == '0')).reverse
    let whole := toString (n / tenTo places)
    if kept.isEmpty then whole else whole ++ "." ++ String.ofList kept

/-- The text of a word. -/
def text (w : Word) : String :=
  if !w.isNumber then "NaN"
  else
    let sign := if w.isNegative then "-" else ""
    if !w.isReal then sign ++ "inf"
    else if w.isZero then sign ++ "0"
    else
      let (n, power) := w.interval.shortest
      sign ++ positional n power

end Danmaku.Word
