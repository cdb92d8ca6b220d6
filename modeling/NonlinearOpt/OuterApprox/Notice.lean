import NonlinearOpt.OuterApprox.Problem
import NonlinearOpt.Text.Notice
import NonlinearOpt.Text.Number

namespace NonlinearOpt.OuterApprox.Event

open Number

def bounds (lower upper : Float) : String := s!"LB: {plain lower}  UB: {plain upper}"

def notice : Event Float → Notice
  | iteration n => ⟨.info, s!"---Master Iteration {n}---"⟩
  | masterOptimal n objective lower upper =>
    ⟨.info, s!"MILP {n}: OBJ: {plain objective}  {bounds lower upper}"⟩
  | masterInfeasible => ⟨.info, "MILP master problem is infeasible. " ++
      "Problem may have no more feasible integer configurations."⟩
  | firstMasterInfeasible => ⟨.warn, "Initial master problem is infeasible. " ++
      "The initial cuts may be of poor quality."⟩
  | masterOther condition n =>
    ⟨.warn, s!"MILP master problem returned {condition.text} at iteration {n}"⟩
  | incumbent objective => ⟨.debug, s!"new incumbent with objective {plain objective}"⟩
  | nlpOptimal n objective lower upper =>
    ⟨.info, s!"NLP {n}: OBJ: {plain objective}  {bounds lower upper}"⟩
  | nlpInfeasible => ⟨.info, "NLP subproblem was locally infeasible."⟩
  | nlpOther condition n =>
    ⟨.warn, s!"NLP subproblem returned {condition.text} at iteration {n}"⟩
  | converged lower tolerance upper =>
    ⟨.info, s!"exiting on bound convergence. LB: {plain lower} + (tol {plain tolerance}) " ++
      s!">= UB: {plain upper}"⟩
  | iterationLimit n lower upper =>
    ⟨.info, s!"unable to converge bounds after {n} master iterations. {bounds lower upper}"⟩
  | timeLimit limit elapsed lower upper =>
    ⟨.info, s!"unable to converge bounds before time limit of {plain limit} seconds. " ++
      s!"Elapsed: {plain elapsed} seconds. {bounds lower upper}"⟩
  | cycling n lower upper =>
    ⟨.info, s!"cycling after {n} master iterations. " ++
      s!"Convergence to an optimal solution is not guaranteed. {bounds lower upper}"⟩
  | corrected condition => ⟨.debug, s!"bound correction master returned {condition.text}"⟩
  | finished condition n lower upper =>
    ⟨.info, s!"outer approximation finished with {condition.text} after {n} iterations. " ++
      bounds lower upper⟩

end NonlinearOpt.OuterApprox.Event
