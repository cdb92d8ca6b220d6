import NonlinearOpt.Kkt.Regularization
import NonlinearOpt.Text.Notice
import NonlinearOpt.Text.Number

namespace NonlinearOpt

namespace RegularizationEvent

def coefficient (x : Float) : String := Number.scientific 1 false x

def notice : RegularizationEvent Float → Notice
  | attempt number primal dual inertia =>
    let outcome := match inertia with
      | some i => s!"inertia {i.text}"
      | none => "singular"
    ⟨.debug, s!"regularization attempt {number}: δ = {coefficient primal}, δc = {coefficient dual}, " ++ outcome⟩
  | exhausted attempts expected =>
    ⟨.warn, s!"KKT regularization exhausted after {attempts} attempts (expected inertia {expected.text})"⟩

end RegularizationEvent

end NonlinearOpt
