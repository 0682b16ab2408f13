import Danmaku.Word.Basic

/-!
# The remainder of a division

The remainder of two words is exact: both are whole numbers of units, and so is what remains.
It has the sign of the dividend, also when nothing remains.
-/

namespace Danmaku.Word

/-- What remains of `a` after taking away `b` as often as it fits. An infinite divisor never fits;
there is no remainder of an infinite word, nor of a division by zero. -/
def remainder (a b : Word) : Word :=
  if !a.isReal || !b.isNumber || b.isZero then notANumber
  else if !b.isReal then a
  else ofUnits a.isNegative (a.units % b.units)

end Danmaku.Word
