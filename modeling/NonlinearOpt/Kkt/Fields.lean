import NonlinearOpt.Kkt.Regularization
import NonlinearOpt.Json.Codec
import NonlinearOpt.Json.Read

namespace NonlinearOpt

open Json

namespace RegularizationSettings

def fields : List (Json.Field (RegularizationSettings Float)) :=
  [.of "initial_coefficient" .number (·.initialCoefficient) fun x s =>
      { s with initialCoefficient := x },
    .of "growth_factor" .number (·.growthFactor) fun x s => { s with growthFactor := x },
    .of "max_iter" (.natural 32) (·.maxIter) fun x s => { s with maxIter := x },
    .of "dual_base" .number (·.dualBase) fun x s => { s with dualBase := x },
    .of "dual_exponent" .number (·.dualExponent) fun x s => { s with dualExponent := x },
    .of "compute_inertia" .flag (·.computeInertia) fun x s => { s with computeInertia := x }]

def codec : Codec (RegularizationSettings Float) := .record fields true default

end RegularizationSettings

namespace Inertia

def fields : List (Json.Field Inertia) :=
  [.of "positive" (.natural 64) (·.positive) fun x i => { i with positive := x },
    .of "negative" (.natural 64) (·.negative) fun x i => { i with negative := x },
    .of "null" (.natural 64) (·.null) fun x i => { i with null := x }]

def codec : Codec Inertia := .record fields false zero

end Inertia

end NonlinearOpt
