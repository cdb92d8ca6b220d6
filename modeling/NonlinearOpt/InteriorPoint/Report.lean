import NonlinearOpt.InteriorPoint.Solver
import NonlinearOpt.Kkt.Notice
import NonlinearOpt.Text.Output

namespace NonlinearOpt.InteriorPoint

namespace Report

open Number

def line (length : Nat) : String := String.ofList (List.replicate length '-')

def onOff (b : Bool) : String := if b then "on" else "off"

def exponent (digits : List Char) : String :=
  let (sign, digits) := match digits with
    | '-' :: digits => ("-", digits)
    | digits => ("+", digits)
  sign ++ zeros (2 - digits.length) ++ String.ofList digits

/-- A number in scientific form, with at least two digits in its exponent. -/
def cell (width places : Nat) (plus : Bool) (x : Float) : String :=
  let s := padLeft width (scientific places plus x)
  match s.toList.span (· ≠ 'e') with
  | (mantissa, 'e' :: digits) =>
    if x.isFinite then String.ofList mantissa ++ "e" ++ exponent digits else s
  | _ => s

def timeLimit (x : Float) : String := if x.isInf then "Inf" else marked x

/-- A length of time in the largest unit that does not make it less than one, exact to the
nanosecond. -/
def duration (seconds : Float) : String :=
  let nanoseconds := (Binary.ofFloat seconds).ratio.roundAt (-9)
  let (places, unit) : Int × String :=
    if 1000000000 ≤ nanoseconds then (9, "s")
    else if 1000000 ≤ nanoseconds then (6, "ms")
    else if 1000 ≤ nanoseconds then (3, "µs")
    else (0, "ns")
  positional (Decimal.shortest.strip false 20 nanoseconds (-places)) ++ unit

def lines (ls : List String) : List String := ls.map (· ++ "\n")

def configuration (s : Settings Float) (dims : Dimensions) (linearSolver : String) :
    List String :=
  let e := scientific 1 false
  lines [
    line 61,
    "      ipoa v0.1.0  -  primal-dual interior point NLP solver",
    line 61,
    "\nproblem:",
    s!"  variables              = {dims.primals}",
    s!"  equality constraints   = {dims.equalities}",
    s!"  inequality constraints = {dims.inequalities}",
    "",
    "settings:",
    s!"  linear algebra: direct / {linearSolver}",
    s!"  max iter = {s.maxIter}, time limit = {timeLimit s.timeLimit}, tol = {e s.tolerance}",
    s!"  barrier: μ0 = {e s.muInit}, μmin = {e s.muMin}, τmin = {fixed 2 s.tauMin}",
    s!"  regularization: {onOff s.regularizeKkt}, δ0 = {e s.regularizationInitial}, " ++
      s!"growth = {fixed 0 s.regularizationGrowth}, max iter = {s.regularizationMaxIter}, " ++
      s!"inertia = {onOff s.computeInertia}",
    ""]

def header : List String :=
  ["iter    ", "objective     ", "pinf      ", "dinf      ", "compl     ", " μ        ",
    "α_pr      ", "α_du      ", "reg       ", "\n"] ++ lines [line 93]

def row (i : Info Float) : List String :=
  let r := i.residuals
  let start := [padLeft 4 (toString i.iterations), cell 8 4 true i.objective,
    cell 6 2 false r.primal, cell 6 2 false r.dual, cell 6 2 false r.complementarity,
    cell 6 2 false i.mu]
  let rest :=
    if 0 < i.iterations then
      [cell 0 2 false i.stepPrimal ++ "  ", cell 0 2 false i.stepDual ++ "  ",
        if 0 < i.regularization then cell 0 1 false i.regularization else "  -"]
    else [" ------    ------      -"]
  start.map (· ++ "  ") ++ rest ++ ["\n"]

def footer (i : Info Float) : List String :=
  lines [
    line 93,
    s!"Terminated with status = {i.status.text}",
    s!"solve time = {duration i.solveTime}"]

end Report

namespace Event

def pieces (s : Settings Float) : Event Float → List String
  | started dims linearSolver => Report.configuration s dims linearSolver ++ Report.header
  | checked info => Report.row info
  | finished info => Report.footer info
  | regularization _ | stopped .. => []

def isUrgent : Event Float → Bool
  | started .. | finished _ => true
  | _ => false

def notice? : Event Float → Option Notice
  | regularization e => some e.notice
  | stopped iteration cause =>
    some ⟨.warn, s!"interior point iteration {iteration} stopped: {cause.message}"⟩
  | _ => none

variable {ω : Type}

def send (w : Writer ω) (s : Settings Float) (place : ω) (e : Event Float) :
    Except String Unit × ω :=
  if s.verbose then
    match w.writeAll (e.pieces s) place with
    | (.ok (), place) => if e.isUrgent then w.flush place else (.ok (), place)
    | (.error reason, place) => (.error reason, place)
  else (.ok (), place)

def refusal? : Except String Unit → Option Notice
  | .ok () => none
  | .error reason => some ⟨.warn, s!"failed to write solver output: {reason}"⟩

/-- Reports an event: its own notice, its text, and a notice if that is refused. -/
def report (w : Writer ω) (s : Settings Float) (place : ω) (e : Event Float) : ω × List Notice :=
  let (answer, place) := e.send w s place
  (place, e.notice?.toList ++ (refusal? answer).toList)

def reportEach (w : Writer ω) (s : Settings Float) (place : ω) (es : List (Event Float)) :
    ω × List Notice :=
  es.foldl (fun (place, notices) e =>
    let (place, more) := e.report w s place
    (place, notices ++ more)) (place, [])

def reportAll (s : Settings Float) (out : Output) (es : List (Event Float)) :
    Output × List Notice :=
  reportEach Output.writer s out es

end Event

end NonlinearOpt.InteriorPoint
