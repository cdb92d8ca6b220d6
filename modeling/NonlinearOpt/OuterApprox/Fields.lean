import NonlinearOpt.OuterApprox.Problem
import NonlinearOpt.Json.Codec
import NonlinearOpt.Json.Read

namespace NonlinearOpt.OuterApprox

open Json

namespace Sense

def codec : Codec Sense := .choice all text minimize

end Sense

namespace Termination

def codec : Codec Termination := .choice all text unknown

end Termination

namespace Strategy

def codec : Codec Strategy := .choice all text oa

end Strategy

namespace MasterOptions

def fields : List (Json.Field MasterOptions) :=
  [.of "add_options" (.list .text) (·.statements) fun x o => { o with statements := x },
    .of "options" (.list (.pair .text .text)) (·.options) fun x o => { o with options := x }]

def codec : Codec MasterOptions := .record fields false ⟨[], []⟩

end MasterOptions

namespace Config

def fields : List (Json.Field (Config Float)) :=
  [.of "iteration_limit" (.natural 32) (·.iterationLimit) fun x c =>
      { c with iterationLimit := x },
    .of "time_limit" .number (·.timeLimit) fun x c => { c with timeLimit := x },
    .of "bound_tolerance" .number (·.boundTolerance) fun x c => { c with boundTolerance := x },
    .of "zero_tolerance" .number (·.zeroTolerance) fun x c => { c with zeroTolerance := x },
    .of "cycling_check" .flag (·.cyclingCheck) fun x c => { c with cyclingCheck := x },
    .of "strategy" Strategy.codec (·.strategy) fun x c => { c with strategy := x },
    .of "single_tree" .flag (·.singleTree) fun x c => { c with singleTree := x },
    .of "add_nogood_cuts" .flag (·.addNoGoodCuts) fun x c => { c with addNoGoodCuts := x },
    .of "mip_solver" .text (·.mipSolver) fun x c => { c with mipSolver := x },
    .of "mip_solver_args" MasterOptions.codec (·.masterOptions) fun x c =>
      { c with masterOptions := x }]

def codec : Codec (Config Float) := .record fields true default

end Config

structure Setup (π : Type) where
  config : Config Float
  callbacks : Callbacks π Float

namespace Setup

def codec (π : Type) : Codec (Setup π) := .part Config.codec (·.config) (⟨·, .none⟩)

end Setup

namespace Results

def fields : List (Json.Field (Results Float)) :=
  [.of "termination_condition" Termination.codec (·.condition) fun x r => { r with condition := x },
    .of "lower_bound" .number (·.lower) fun x r => { r with lower := x },
    .of "upper_bound" .number (·.upper) fun x r => { r with upper := x },
    .of "iterations" (.natural 32) (·.iterations) fun x r => { r with iterations := x },
    .of "solve_time" .number (·.solveTime) fun x r => { r with solveTime := x },
    .of "best_objective" (.option .number) (·.bestObjective) fun x r =>
      { r with bestObjective := x },
    .of "best_solution" (.option (.array .number)) (·.bestSolution) fun x r =>
      { r with bestSolution := x }]

def codec : Codec (Results Float) := .record fields false initial

end Results

namespace SubproblemResult

def fields : List (Json.Field (SubproblemResult Float)) :=
  [.of "termination_condition" Termination.codec (·.condition) fun x r => { r with condition := x },
    .of "lower_bound" .number (·.lower) fun x r => { r with lower := x },
    .of "upper_bound" .number (·.upper) fun x r => { r with upper := x },
    .of "objective" .number (·.objective) fun x r => { r with objective := x },
    .of "solution" (.array .number) (·.solution) fun x r => { r with solution := x }]

def codec : Codec (SubproblemResult Float) := .record fields false (ofCondition .unknown)

end SubproblemResult

end NonlinearOpt.OuterApprox
