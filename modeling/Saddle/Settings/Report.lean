import Saddle.Decimal.Shortest
import Saddle.Settings.Basic

/-!
# What is reported of settings that are refused

The value that is refused is shown in full, in the fewest digits that identify it.
-/

namespace Saddle.Settings

/-- What is reported of a setting that is refused. -/
def Invalid.message : Invalid Float → String
  | .sigma value => s!"sigma must be positive and finite, got {Decimal.plainText value}"
  | .rho value => s!"rho must be positive and finite, got {Decimal.plainText value}"
  | .denseRowFactor => "dense_row_factor is NaN"

end Saddle.Settings
