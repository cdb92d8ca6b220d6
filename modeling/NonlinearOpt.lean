import NonlinearOpt.Sparse.Format
import NonlinearOpt.Sparse.Triplets
import NonlinearOpt.Sparse.Product
import NonlinearOpt.LinearSolver.Backend
import NonlinearOpt.Kkt.Notice
import NonlinearOpt.Kkt.Fields
import NonlinearOpt.Nlp.Expression
import NonlinearOpt.InteriorPoint.Solve
import NonlinearOpt.InteriorPoint.Report
import NonlinearOpt.InteriorPoint.Printing
import NonlinearOpt.InteriorPoint.Fields
import NonlinearOpt.OuterApprox.Search
import NonlinearOpt.OuterApprox.Notice
import NonlinearOpt.OuterApprox.Fields
import NonlinearOpt.Proofs.InteriorPoint.Optimality
import NonlinearOpt.Proofs.InteriorPoint.Exit
import NonlinearOpt.Proofs.InteriorPoint.NewtonStep
import NonlinearOpt.Proofs.InteriorPoint.LongestStep
import NonlinearOpt.Proofs.Sparse.Assembly
import NonlinearOpt.Proofs.Sparse.Product
import NonlinearOpt.Proofs.Ldl.Fill
import NonlinearOpt.Proofs.Ldl.Minors
import NonlinearOpt.Proofs.Ldl.Orderings
import NonlinearOpt.Proofs.Ldl.InPlace
import NonlinearOpt.Proofs.LinearSolver.Dense
import NonlinearOpt.Proofs.Kkt.Solution
import NonlinearOpt.Proofs.Kkt.Monotonicity
import NonlinearOpt.Proofs.OuterApprox.Exclusion
import NonlinearOpt.Proofs.OuterApprox.Incumbent
import NonlinearOpt.Proofs.OuterApprox.Monotone
import NonlinearOpt.Proofs.OuterApprox.Mirror
import NonlinearOpt.Proofs.Json.Records
import NonlinearOpt.Proofs.InteriorPoint.BarrierParameter
import NonlinearOpt.Proofs.OuterApprox.Cycling
import NonlinearOpt.Proofs.Timing.Pauses
import NonlinearOpt.Proofs.InteriorPoint.Table
