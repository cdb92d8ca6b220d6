import NonlinearOpt.InteriorPoint.Solver
import NonlinearOpt.Json.Codec
import NonlinearOpt.Json.Read

namespace NonlinearOpt.InteriorPoint

open Json

namespace Settings

def fields : List (Json.Field (Settings Float)) :=
  [.of "max_iter" (.natural 32) (·.maxIter) fun x s => { s with maxIter := x },
    .of "time_limit" .number (·.timeLimit) fun x s => { s with timeLimit := x },
    .of "verbose" .flag (·.verbose) fun x s => { s with verbose := x },
    .of "tol" .number (·.tolerance) fun x s => { s with tolerance := x },
    .of "mu_init" .number (·.muInit) fun x s => { s with muInit := x },
    .of "mu_min" .number (·.muMin) fun x s => { s with muMin := x },
    .of "mu_linear_decrease" .number (·.muLinearDecrease) fun x s =>
      { s with muLinearDecrease := x },
    .of "mu_superlinear_power" .number (·.muSuperlinearPower) fun x s =>
      { s with muSuperlinearPower := x },
    .of "barrier_tol_factor" .number (·.barrierTolFactor) fun x s =>
      { s with barrierTolFactor := x },
    .of "tau_min" .number (·.tauMin) fun x s => { s with tauMin := x },
    .of "regularize_kkt" .flag (·.regularizeKkt) fun x s => { s with regularizeKkt := x },
    .of "compute_inertia" .flag (·.computeInertia) fun x s => { s with computeInertia := x },
    .of "regularization_initial" .number (·.regularizationInitial) fun x s =>
      { s with regularizationInitial := x },
    .of "regularization_growth" .number (·.regularizationGrowth) fun x s =>
      { s with regularizationGrowth := x },
    .of "regularization_max_iter" (.natural 32) (·.regularizationMaxIter) fun x s =>
      { s with regularizationMaxIter := x },
    .of "dual_regularization_base" .number (·.dualRegularizationBase) fun x s =>
      { s with dualRegularizationBase := x },
    .of "dual_regularization_exponent" .number (·.dualRegularizationExponent) fun x s =>
      { s with dualRegularizationExponent := x },
    .of "direct_solve_method" .text (·.directSolveMethod) fun x s =>
      { s with directSolveMethod := x },
    .of "pivot_tolerance" .number (·.pivotTolerance) fun x s => { s with pivotTolerance := x }]

def codec : Codec (Settings Float) := .record fields true default

end Settings

namespace Status

def codec : Codec Status := .choice all text unsolved

end Status

end NonlinearOpt.InteriorPoint
