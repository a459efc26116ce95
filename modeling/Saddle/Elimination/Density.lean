/-!
# Dense rows

A row with very many entries makes ordering slow and tells it little, so such rows
are left out and ordered last. The limit grows with the square root of the
dimension; a row with sixteen entries or fewer is never above it.
-/

namespace Saddle.Elimination

/-- The limit for a factor that is not negative: the factor times the square root of the
dimension, rounded towards zero, but at least sixteen and at most the dimension. A factor that is
no number counts as zero. -/
def scaledThreshold (factor : Float) (n : Nat) : Nat :=
  min (max (factor * n.toFloat.sqrt).toUInt64.toNat 16) n

/-- The number of neighbours above which a row is dense. A negative factor turns the test off. -/
def denseThreshold (factor : Float) (n : Nat) : Nat :=
  if factor < 0.0 then n else scaledThreshold factor n

end Saddle.Elimination
