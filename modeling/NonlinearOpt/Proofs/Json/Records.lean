import NonlinearOpt.InteriorPoint.Fields
import NonlinearOpt.Kkt.Fields
import NonlinearOpt.OuterApprox.Fields
import NonlinearOpt.Proofs.Json.Reread
import NonlinearOpt.Proofs.Json.RoundTrip

namespace NonlinearOpt

open Json

namespace RegularizationSettings

def numbers (s : RegularizationSettings Float) : List Float :=
  [s.initialCoefficient, s.growthFactor, s.dualBase, s.dualExponent]

theorem keeps {s : RegularizationSettings Float} (h : s.maxIter < 2 ^ 32) :
    codec.Keeps s s.numbers s := by
  have hfields : Field.Keeps fields s _ _ :=
    .cons (.number _) <| .cons (.number _) <| .cons (.natural (by decide) h) <|
      .cons (.number _) <| .cons (.number _) <| .cons (.flag _) .nil
  exact .record hfields (by decide) true default

end RegularizationSettings

namespace Inertia

theorem keeps {i : Inertia} (hpositive : i.positive < 2 ^ 64) (hnegative : i.negative < 2 ^ 64)
    (hnull : i.null < 2 ^ 64) : codec.Keeps i [] i := by
  have hfields : Field.Keeps fields i _ _ :=
    .cons (.natural (by decide) hpositive) <| .cons (.natural (by decide) hnegative) <|
      .cons (.natural (by decide) hnull) .nil
  exact .record hfields (by decide) false zero

end Inertia

namespace InteriorPoint.Settings

def numbers (s : Settings Float) : List Float :=
  [s.timeLimit, s.tolerance, s.muInit, s.muMin, s.muLinearDecrease, s.muSuperlinearPower,
    s.barrierTolFactor, s.tauMin, s.regularizationInitial, s.regularizationGrowth,
    s.dualRegularizationBase, s.dualRegularizationExponent, s.pivotTolerance]

theorem keeps {s : Settings Float} (hmax : s.maxIter < 2 ^ 32)
    (hregularization : s.regularizationMaxIter < 2 ^ 32) : codec.Keeps s s.numbers s := by
  have hfields : Field.Keeps fields s _ _ :=
    .cons (.natural (by decide) hmax) <| .cons (.number _) <| .cons (.flag _) <|
      .cons (.number _) <| .cons (.number _) <| .cons (.number _) <| .cons (.number _) <|
      .cons (.number _) <| .cons (.number _) <| .cons (.number _) <| .cons (.flag _) <|
      .cons (.flag _) <| .cons (.number _) <| .cons (.number _) <|
      .cons (.natural (by decide) hregularization) <| .cons (.number _) <| .cons (.number _) <|
      .cons (.text _) <| .cons (.number _) .nil
  exact .record hfields (by decide) true default

end InteriorPoint.Settings

namespace OuterApprox

theorem Strategy.keeps (s : Strategy) : codec.Keeps s [] s :=
  .choice (by cases s <;> rfl)

theorem Termination.keeps (t : Termination) : codec.Keeps t [] t :=
  .choice (by cases t <;> rfl)

theorem MasterOptions.keeps (o : MasterOptions) : codec.Keeps o [] o := by
  have hfields : Field.Keeps fields o _ _ :=
    .cons (.plainList .text) <| .cons (.plainList fun (x, y) => .pair (.text x) (.text y)) .nil
  exact .record hfields (by decide) false ⟨[], []⟩

namespace Config

def numbers (c : Config Float) : List Float := [c.timeLimit, c.boundTolerance, c.zeroTolerance]

theorem keeps {c : Config Float} (h : c.iterationLimit < 2 ^ 32) : codec.Keeps c c.numbers c := by
  have hfields : Field.Keeps fields c _ _ :=
    .cons (.natural (by decide) h) <| .cons (.number _) <| .cons (.number _) <|
      .cons (.number _) <| .cons (.flag _) <| .cons (Strategy.keeps _) <| .cons (.flag _) <|
      .cons (.flag _) <| .cons (.text _) <| .cons (MasterOptions.keeps _) .nil
  exact .record hfields (by decide) true default

end Config

theorem Setup.keeps {π : Type} {s : Setup π} (h : s.config.iterationLimit < 2 ^ 32) :
    (codec π).Keeps s s.config.numbers ⟨s.config, .none⟩ :=
  .part (Config.keeps h)

namespace Results

def numbers (r : Results Float) : List Float :=
  r.lower :: r.upper :: r.solveTime :: r.bestSolution.elim [] Array.toList

theorem keeps {r : Results Float} (h : r.iterations < 2 ^ 32) :
    codec.Keeps r r.numbers { r with bestObjective := r.bestObjective.filter Float.isFinite } := by
  have hfields : Field.Keeps fields r _ _ :=
    .cons (Termination.keeps _) <| .cons (.number _) <| .cons (.number _) <|
      .cons (.natural (by decide) h) <| .cons (.number _) <| .cons (.optionNumber _) <|
      .cons (.optionNumbers _) .nil
  have hnumbers : r.numbers = [r.lower] ++ ([r.upper] ++ ([r.solveTime] ++
      (r.bestSolution.elim [] Array.toList ++ []))) := by
    rw [List.append_nil]
    rfl
  rw [hnumbers]
  exact .record hfields (by decide) false initial

end Results

namespace SubproblemResult

def numbers (r : SubproblemResult Float) : List Float :=
  r.lower :: r.upper :: r.objective :: r.solution.toList

theorem keeps (r : SubproblemResult Float) : codec.Keeps r r.numbers r := by
  have hfields : Field.Keeps fields r _ _ :=
    .cons (Termination.keeps _) <| .cons (.number _) <| .cons (.number _) <|
      .cons (.number _) <| .cons (.numbers _) .nil
  have hnumbers : r.numbers = [r.lower] ++ ([r.upper] ++ ([r.objective] ++
      (r.solution.toList ++ []))) := by
    rw [List.append_nil]
    rfl
  rw [hnumbers]
  exact .record hfields (by decide) false (ofCondition .unknown)

end SubproblemResult

end OuterApprox

open OuterApprox InteriorPoint

/-- Written and read again, a record is the same if the floats that it requires are finite, except
that callbacks and an optional objective that is not finite are gone. Otherwise a mismatch is
found. -/
theorem parse_write_records [Format] (hformat : Format.Faithful) {π : Type} :
    (∀ s : Setup π, s.config.iterationLimit < 2 ^ 32 →
      (Setup.codec π).parse ((Setup.codec π).write s) =
        if s.config.numbers.all Float.isFinite then .ok ⟨s.config, .none⟩
        else .error .mismatch) ∧
    (∀ s : InteriorPoint.Settings Float, s.maxIter < 2 ^ 32 → s.regularizationMaxIter < 2 ^ 32 →
      Settings.codec.parse (Settings.codec.write s) =
        if s.numbers.all Float.isFinite then .ok s else .error .mismatch) ∧
    (∀ s : RegularizationSettings Float, s.maxIter < 2 ^ 32 →
      RegularizationSettings.codec.parse (RegularizationSettings.codec.write s) =
        if s.numbers.all Float.isFinite then .ok s else .error .mismatch) ∧
    (∀ r : Results Float, r.iterations < 2 ^ 32 →
      Results.codec.parse (Results.codec.write r) =
        if r.numbers.all Float.isFinite
        then .ok { r with bestObjective := r.bestObjective.filter Float.isFinite }
        else .error .mismatch) ∧
    (∀ r : SubproblemResult Float,
      SubproblemResult.codec.parse (SubproblemResult.codec.write r) =
        if r.numbers.all Float.isFinite then .ok r else .error .mismatch) ∧
    (∀ o : MasterOptions, MasterOptions.codec.parse (MasterOptions.codec.write o) = .ok o) ∧
    ∀ i : Inertia, i.positive < 2 ^ 64 → i.negative < 2 ^ 64 → i.null < 2 ^ 64 →
      Inertia.codec.parse (Inertia.codec.write i) = .ok i :=
  ⟨fun _ h => (Setup.keeps h).parse_write hformat,
    fun _ hmax hregularization => (Settings.keeps hmax hregularization).parse_write hformat,
    fun _ h => (RegularizationSettings.keeps h).parse_write hformat,
    fun _ h => (Results.keeps h).parse_write hformat,
    fun r => r.keeps.parse_write hformat,
    fun o => o.keeps.parse_write hformat,
    fun _ hpositive hnegative hnull =>
      (Inertia.keeps hpositive hnegative hnull).parse_write hformat⟩

theorem parse_write_finite_records :
    (let config : Config Float :=
        { Config.default with strategy := .goa, iterationLimit := 7, timeLimit := 60 };
      (Setup.codec Unit).parse ((Setup.codec Unit).write
        ⟨config, ⟨some fun _ p => (.ok (), p), none⟩⟩) = .ok ⟨config, .none⟩) ∧
    (let s : InteriorPoint.Settings Float := { Settings.default with timeLimit := 0.1 };
      Settings.codec.parse (Settings.codec.write s) = .ok s) ∧
    RegularizationSettings.codec.parse (RegularizationSettings.codec.write .default) =
      .ok .default ∧
    Results.codec.parse (Results.codec.write
        ⟨.feasible, -1.5, 1e300, 3, 1e-320, some (1.0 / 0.0), some #[1, -0.0]⟩) =
      .ok ⟨.feasible, -1.5, 1e300, 3, 1e-320, none, some #[1, -0.0]⟩ ∧
    SubproblemResult.codec.parse (SubproblemResult.codec.write ⟨.optimal, 0, 1, 1, #[2]⟩) =
      .ok ⟨.optimal, 0, 1, 1, #[2]⟩ ∧
    MasterOptions.codec.parse (MasterOptions.codec.write ⟨["a", ""], [("b", "\"")]⟩) =
      .ok ⟨["a", ""], [("b", "\"")]⟩ ∧
    Inertia.codec.parse (Inertia.codec.write ⟨3, 1, 0⟩) = .ok ⟨3, 1, 0⟩ := by
  obtain ⟨hsetup, hsettings, hregularization, hresults, hresult, hoptions, hinertia⟩ :=
    parse_write_records faithful_compact (π := Unit)
  refine ⟨?_, ?_, ?_, ?_, ?_, hoptions _, hinertia _ (by decide) (by decide) (by decide)⟩
  · exact (hsetup _ (by decide)).trans (if_pos (by decide +kernel))
  · exact (hsettings _ (by decide) (by decide)).trans (if_pos (by decide +kernel))
  · exact (hregularization _ (by decide)).trans (if_pos (by decide +kernel))
  · have hinfinite : (some (1.0 / 0.0 : Float)).filter Float.isFinite = none := by decide +kernel
    have hread := (hresults ⟨.feasible, -1.5, 1e300, 3, 1e-320, some (1.0 / 0.0), some #[1, -0.0]⟩
      (by decide)).trans (if_pos (by decide +kernel))
    rwa [hinfinite] at hread
  · exact (hresult _).trans (if_pos (by decide +kernel))

/-- Defaults with infinite limits or bounds are written, but not read again. -/
theorem defaults_not_read_back :
    Config.codec.parse (Config.codec.write .default) = .error .mismatch ∧
    Settings.codec.parse (Settings.codec.write .default) = .error .mismatch ∧
    Results.codec.parse (Results.codec.write .initial) = .error .mismatch ∧
    SubproblemResult.codec.parse (SubproblemResult.codec.write
      { SubproblemResult.ofCondition .unknown with objective := 0 }) = .error .mismatch := by
  refine ⟨?_, ?_, ?_, ?_⟩
  · exact ((Config.keeps (by decide)).parse_write faithful_compact).trans
      (if_neg (by decide +kernel))
  · exact ((Settings.keeps (by decide) (by decide)).parse_write faithful_compact).trans
      (if_neg (by decide +kernel))
  · exact ((Results.keeps (by decide)).parse_write faithful_compact).trans
      (if_neg (by decide +kernel))
  · exact ((SubproblemResult.keeps _).parse_write faithful_compact).trans
      (if_neg (by decide +kernel))

end NonlinearOpt
