import NonlinearOpt.Scalar

namespace NonlinearOpt.OuterApprox

inductive Sense where
  | minimize
  | maximize
  deriving DecidableEq, Repr

namespace Sense

def all : List Sense := [minimize, maximize]

def text : Sense → String
  | minimize => "Minimize"
  | maximize => "Maximize"

end Sense

inductive Termination where
  | optimal
  | locallyOptimal
  | infeasible
  | maxIterations
  | maxTimeLimit
  /-- A feasible point was found but may not be optimal. -/
  | feasible
  | other
  | unknown
  deriving DecidableEq, Repr

namespace Termination

def all : List Termination :=
  [optimal, locallyOptimal, infeasible, maxIterations, maxTimeLimit, feasible, other, unknown]

def text : Termination → String
  | optimal => "Optimal"
  | locallyOptimal => "LocallyOptimal"
  | infeasible => "Infeasible"
  | maxIterations => "MaxIterations"
  | maxTimeLimit => "MaxTimeLimit"
  | feasible => "Feasible"
  | other => "Other"
  | unknown => "Unknown"

end Termination

/-- Decomposition methods: outer approximation, global outer approximation, extended cutting planes,
generalized Benders decomposition, and the feasibility pump. -/
inductive Strategy where
  | oa
  | goa
  | ecp
  | gbd
  | fp
  deriving DecidableEq, Repr

namespace Strategy

def all : List Strategy := [oa, goa, ecp, gbd, fp]

def text : Strategy → String
  | oa => "OA"
  | goa => "GOA"
  | ecp => "ECP"
  | gbd => "GBD"
  | fp => "FP"

def isImplemented : Strategy → Bool
  | oa | goa => true
  | ecp | gbd | fp => false

end Strategy

structure MasterOptions where
  statements : List String
  options : List (String × String)
  deriving DecidableEq, Repr

structure Config (α : Type) where
  iterationLimit : Nat
  timeLimit : α
  /-- The bounds have met once they are this close. -/
  boundTolerance : α
  /-- Duals below this size count as zero when cuts are made. -/
  zeroTolerance : α
  /-- Whether to stop when the master problem gives one assignment twice in a row. -/
  cyclingCheck : Bool
  strategy : Strategy
  /-- Whether the master solver makes its cuts itself, so that no NLP is solved. -/
  singleTree : Bool
  /-- Whether every visited assignment is excluded from the master problem. -/
  addNoGoodCuts : Bool
  mipSolver : String
  masterOptions : MasterOptions

namespace Config

variable {α : Type} [Scalar α]

def default : Config α :=
  { iterationLimit := 50
    timeLimit := Scalar.infinity
    boundTolerance := 1e-4
    zeroTolerance := 1e-8
    cyclingCheck := true
    strategy := .oa
    singleTree := false
    addNoGoodCuts := false
    mipSolver := "glpk"
    masterOptions := ⟨[], []⟩ }

end Config

inductive Error where
  | notImplemented (strategy : Strategy)
  | subSolver (message : String)
  | callback (message : String)
  deriving DecidableEq, Repr

namespace Error

def message : Error → String
  | notImplemented strategy => s!"strategy {strategy.text} is not implemented"
  | subSolver message => s!"sub-solver failed: {message}"
  | callback message => s!"callback failed: {message}"

end Error

end NonlinearOpt.OuterApprox
