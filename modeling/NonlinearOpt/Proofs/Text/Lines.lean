import Mathlib.Data.List.TakeDrop
import NonlinearOpt.InteriorPoint.Report

namespace NonlinearOpt

def Unbroken (s : String) : Prop := '\n' ∉ s.toList

instance (s : String) : Decidable (Unbroken s) := inferInstanceAs (Decidable ('\n' ∉ s.toList))

namespace Unbroken

variable {s t : String}

theorem append (hs : Unbroken s) (ht : Unbroken t) : Unbroken (s ++ t) := by
  unfold Unbroken at *
  rw [String.toList_append, List.mem_append]
  exact not_or_intro hs ht

theorem ofList {l : List Char} (h : '\n' ∉ l) : Unbroken (String.ofList l) := by
  unfold Unbroken
  rwa [String.toList_ofList]

theorem replicate (n : Nat) {c : Char} (hc : c ≠ '\n') :
    Unbroken (String.ofList (List.replicate n c)) :=
  ofList fun hmem => hc (List.eq_of_mem_replicate hmem).symm

theorem of_subset {l : List Char} (hs : Unbroken s) (h : l ⊆ s.toList) :
    Unbroken (String.ofList l) :=
  ofList fun hmem => hs (h hmem)

theorem join {pieces : List String} (h : ∀ s ∈ pieces, Unbroken s) :
    Unbroken (String.join pieces) := by
  induction pieces with
  | nil => exact nofun
  | cons s pieces ih =>
    rw [String.join_cons]
    exact append (h s List.mem_cons_self) (ih fun t ht => h t (List.mem_cons_of_mem s ht))

theorem natural (n : Nat) : Unbroken (toString n) := by
  refine ofList fun hmem => ?_
  have hdigit := Nat.isDigit_of_mem_toDigits (by decide) (by decide) hmem
  cases hdigit

theorem integer (i : Int) : Unbroken (toString i) := by
  cases i with
  | ofNat n => exact natural n
  | negSucc n => exact append (s := "-") (by decide) (natural (n + 1))

end Unbroken

namespace Number

open Unbroken

theorem unbroken_zeros (n : Nat) : Unbroken (zeros n) := replicate n (by decide)

theorem unbroken_pointAfter {digits : String} (h : Unbroken digits) (k : Nat) :
    Unbroken (pointAfter digits k) := by
  have hpoint : Unbroken "." := by decide
  exact ((h.of_subset (List.take_subset k _)).append hpoint).append
    (h.of_subset (List.drop_subset k _))

theorem unbroken_sign (negative plus : Bool) : Unbroken (sign negative plus) := by
  cases negative <;> cases plus <;> decide

theorem unbroken_special (x : Float) (plus : Bool) : Unbroken (special x plus) := by
  unfold special
  split
  · decide
  · exact (unbroken_sign _ _).append (by decide)

theorem unbroken_padLeft {s : String} (h : Unbroken s) (width : Nat) :
    Unbroken (padLeft width s) :=
  (replicate _ (by decide)).append h

theorem unbroken_withExponent {digits : String} (h : Unbroken digits) (exponent : Int) :
    Unbroken (withExponent digits exponent) := by
  have hmantissa : Unbroken (if digits.length ≤ 1 then digits else pointAfter digits 1) := by
    split
    · exact h
    · exact unbroken_pointAfter h 1
  have he : Unbroken "e" := by decide
  exact (hmantissa.append he).append (integer exponent)

theorem unbroken_scientific (places : Nat) (plus : Bool) (x : Float) :
    Unbroken (scientific places plus x) := by
  unfold scientific
  split
  · refine (unbroken_sign _ _).append ?_
    split
    · exact unbroken_withExponent (unbroken_zeros _) _
    · dsimp only
      split
      · exact unbroken_withExponent (natural _) _
      · exact unbroken_withExponent (natural _) _
  · exact unbroken_special x plus

end Number

namespace InteriorPoint.Report

open Number Unbroken

theorem unbroken_exponent {digits : List Char} (h : '\n' ∉ digits) :
    Unbroken (exponent digits) := by
  unfold exponent
  split
  next sign digits' hmatch =>
    split at hmatch
    · obtain ⟨rfl, rfl⟩ := Prod.mk.inj hmatch
      exact ((by decide : Unbroken "-").append (unbroken_zeros _)).append
        (ofList fun hmem => h (List.mem_cons_of_mem _ hmem))
    · obtain ⟨rfl, rfl⟩ := Prod.mk.inj hmatch
      exact ((by decide : Unbroken "+").append (unbroken_zeros _)).append (ofList h)

theorem unbroken_cell (width places : Nat) (plus : Bool) (x : Float) :
    Unbroken (cell width places plus x) := by
  have hs := unbroken_padLeft (unbroken_scientific places plus x) width
  unfold cell
  dsimp only
  generalize padLeft width (scientific places plus x) = s at hs
  rw [List.span_eq_takeWhile_dropWhile]
  split
  next mantissa digits hspan =>
    obtain ⟨rfl, hdigits⟩ := Prod.mk.inj hspan
    have hsuffix := (List.dropWhile_suffix (· ≠ 'e') (l := s.toList)).subset
    split
    · have hmantissa := hs.of_subset (List.takeWhile_subset (· ≠ 'e'))
      have he : Unbroken "e" := by decide
      refine (hmantissa.append he).append (unbroken_exponent fun hmem => hs (hsuffix ?_))
      rw [hdigits]
      exact List.mem_cons_of_mem _ hmem
    · exact hs
  next => exact hs

/-- One line of text that begins with a number, in a column of its own. -/
def IsRow (k : Nat) (text : String) : Prop :=
  ∃ cells, Unbroken cells ∧ text = padLeft 4 (toString k) ++ "  " ++ cells ++ "\n"

theorem isRow_join {k : Nat} (cells : List String) (h : ∀ s ∈ cells, Unbroken s) :
    IsRow k (String.join ((padLeft 4 (toString k) ++ "  ") :: cells ++ ["\n"])) := by
  refine ⟨_, join h, ?_⟩
  rw [String.join_append, String.join_cons]
  rfl

theorem isRow_row (i : Info Float) : IsRow i.iterations (String.join (row i)) := by
  have hcell (width places : Nat) (plus : Bool) (x : Float) :
      Unbroken (cell width places plus x ++ "  ") :=
    (unbroken_cell width places plus x).append (by decide)
  have hregularization :
      Unbroken (if 0 < i.regularization then cell 0 1 false i.regularization else "  -") := by
    split
    · exact unbroken_cell 0 1 false i.regularization
    · decide
  have hnone : Unbroken " ------    ------      -" := by decide
  unfold row
  dsimp only
  split
  · refine isRow_join [_, _, _, _, _, _, _, _] ?_
    simp [hcell, hregularization]
  · refine isRow_join [_, _, _, _, _, _] ?_
    simp [hcell, hnone]

section Configuration

/-- Somewhere in a text a value follows its label, up to a comma or the end of the line. -/
def Shows (text : String) (entry : String × String) : Prop :=
  ∃ before stop after, stop ∈ [",", "\n"] ∧ text = before ++ entry.1 ++ entry.2 ++ stop ++ after

def IsConfiguration (s : Settings Float) (dims : Dimensions) (linearSolver text : String) : Prop :=
  ∀ entry ∈ [
    ("variables              = ", toString dims.primals),
    ("equality constraints   = ", toString dims.equalities),
    ("inequality constraints = ", toString dims.inequalities),
    ("linear algebra: direct / ", linearSolver),
    ("max iter = ", toString s.maxIter),
    ("time limit = ", timeLimit s.timeLimit),
    ("tol = ", scientific 1 false s.tolerance),
    ("μ0 = ", scientific 1 false s.muInit),
    ("μmin = ", scientific 1 false s.muMin),
    ("τmin = ", fixed 2 s.tauMin),
    ("regularization: ", onOff s.regularizeKkt),
    ("δ0 = ", scientific 1 false s.regularizationInitial),
    ("growth = ", fixed 0 s.regularizationGrowth),
    ("max iter = ", toString s.regularizationMaxIter),
    ("inertia = ", onOff s.computeInertia)], Shows text entry

/-- Entries on one line. -/
def listed (entries : List (String × String)) : String :=
  ", ".intercalate (entries.map fun entry => entry.1 ++ entry.2) ++ "\n"

theorem listed_cons {entries : List (String × String)} (entry : String × String)
    (h : entries ≠ []) : listed (entry :: entries) = entry.1 ++ entry.2 ++ ", " ++ listed entries := by
  unfold listed
  rw [List.map_cons, String.intercalate_cons_of_ne_nil (by simpa using h)]
  simp only [String.append_assoc]

theorem shows_listed {entries : List (String × String)} {entry : String × String}
    (h : entry ∈ entries) (before after : String) :
    Shows (before ++ listed entries ++ after) entry := by
  induction entries generalizing before with
  | nil => cases h
  | cons first entries ih =>
    by_cases hlast : entries = []
    · subst hlast
      obtain rfl := List.mem_singleton.mp h
      refine ⟨before, "\n", after, by decide, ?_⟩
      simp only [listed, List.map_cons, List.map_nil, String.intercalate_singleton,
        String.append_assoc]
    · rw [listed_cons first hlast]
      obtain rfl | h := List.mem_cons.mp h
      · refine ⟨before, ",", " " ++ listed entries ++ after, by decide, ?_⟩
        rw [show ", " = "," ++ " " from rfl]
        simp only [String.append_assoc]
      · rw [← String.append_assoc]
        exact ih h _

theorem shows_join {pieces : List String} {lead : String} {entries : List (String × String)}
    (i : Nat) (h : (pieces[i]?).map String.toList = some (lead ++ listed entries).toList) :
    ∀ entry ∈ entries, Shows (String.join pieces) entry := by
  intro entry hentry
  obtain ⟨piece, hi, hpiece⟩ := Option.map_eq_some_iff.mp h
  obtain ⟨hlt, rfl⟩ := List.getElem?_eq_some_iff.mp hi
  rw [← List.take_append_drop i pieces, List.drop_eq_getElem_cons hlt,
    String.toList_injective hpiece, String.join_append, String.join_cons, ← String.append_assoc,
    ← String.append_assoc]
  exact shows_listed hentry _ _

theorem isConfiguration_configuration (s : Settings Float) (dims : Dimensions)
    (linearSolver : String) :
    IsConfiguration s dims linearSolver (String.join (configuration s dims linearSolver)) := by
  have hliteral : ∀ t : String, toString t = t := fun _ => rfl
  have hline (i : Nat) (lead : String) (entries : List (String × String))
      (h : (configuration s dims linearSolver)[i]?.map String.toList =
        some (lead ++ listed entries).toList) :
      ∀ entry ∈ entries, Shows (String.join (configuration s dims linearSolver)) entry :=
    shows_join i h
  have hprimals := hline 4 "  " [("variables              = ", toString dims.primals)]
    (by simp [configuration, lines, listed, hliteral])
  have hequalities := hline 5 "  " [("equality constraints   = ", toString dims.equalities)]
    (by simp [configuration, lines, listed, hliteral])
  have hinequalities := hline 6 "  " [("inequality constraints = ", toString dims.inequalities)]
    (by simp [configuration, lines, listed, hliteral])
  have hsolver := hline 9 "  " [("linear algebra: direct / ", linearSolver)]
    (by simp [configuration, lines, listed, hliteral])
  have hlimits := hline 10 "  " [("max iter = ", toString s.maxIter),
      ("time limit = ", timeLimit s.timeLimit), ("tol = ", scientific 1 false s.tolerance)]
    (by simp [configuration, lines, listed, hliteral])
  have hbarrier := hline 11 "  barrier: " [("μ0 = ", scientific 1 false s.muInit),
      ("μmin = ", scientific 1 false s.muMin), ("τmin = ", fixed 2 s.tauMin)]
    (by simp [configuration, lines, listed, hliteral])
  have hregularization := hline 12 "  " [("regularization: ", onOff s.regularizeKkt),
      ("δ0 = ", scientific 1 false s.regularizationInitial),
      ("growth = ", fixed 0 s.regularizationGrowth),
      ("max iter = ", toString s.regularizationMaxIter), ("inertia = ", onOff s.computeInertia)]
    (by simp [configuration, lines, listed, hliteral])
  have hsettings := List.forall_mem_append.mpr ⟨hlimits, List.forall_mem_append.mpr
    ⟨hbarrier, hregularization⟩⟩
  have hproblem := List.forall_mem_append.mpr ⟨hprimals, List.forall_mem_append.mpr
    ⟨hequalities, List.forall_mem_append.mpr ⟨hinequalities, hsolver⟩⟩⟩
  have hall := List.forall_mem_append.mpr ⟨hproblem, hsettings⟩
  exact hall

end Configuration

section Table

def rule : String := String.ofList (List.replicate 93 '-')

theorem line_eq_rule : line 93 = rule := rfl

def IsHeader (text : String) : Prop :=
  ∃ cells : List String, text = String.join cells ++ "\n" ++ rule ++ "\n" ∧
    cells.map (·.toList.filter (· ≠ ' ')) =
      ["iter", "objective", "pinf", "dinf", "compl", "μ", "α_pr", "α_du", "reg"].map String.toList

theorem isHeader_header : IsHeader (String.join header) := by
  refine ⟨header.take 9, ?_, by decide⟩
  show String.join (header.take 9 ++ ["\n", line 93 ++ "\n"]) = _
  rw [String.join_append, String.join_cons, String.join_cons, String.join_nil, String.append_empty,
    ← String.append_assoc, ← String.append_assoc, line_eq_rule]

def IsFooter (status : Status) (solveTime : Float) (text : String) : Prop :=
  text = rule ++ "\nTerminated with status = " ++ status.text ++ "\nsolve time = " ++
    duration solveTime ++ "\n"

theorem join_footer (rule status time : String) :
    String.join (lines [rule, s!"Terminated with status = {status}", s!"solve time = {time}"]) =
      rule ++ "\nTerminated with status = " ++ status ++ "\nsolve time = " ++ time ++ "\n" := by
  have hliteral : ∀ t : String, toString t = t := fun _ => rfl
  apply String.toList_injective
  simp [lines, hliteral]

theorem isFooter_footer (i : Info Float) :
    IsFooter i.status i.solveTime (String.join (footer i)) := by
  rw [IsFooter, footer, join_footer, line_eq_rule]

theorem text_injective {status status' : Status} (h : status.text = status'.text) :
    status = status' := by
  cases status <;> cases status' <;> first | rfl | exact absurd h (by decide)

theorem unbroken_text (status : Status) : Unbroken status.text := by
  cases status <;> decide

theorem status_of_isFooter {status status' : Status} {solveTime : Float} {text : String}
    (h : IsFooter status solveTime text) (h' : IsFooter status' solveTime text) :
    status' = status := by
  unfold IsFooter at h h'
  generalize duration solveTime = time at h h'
  have hline (status : Status) :
      (status.text ++ "\nsolve time = " ++ time ++ "\n").toList.takeWhile (· ≠ '\n') =
        status.text.toList := by
    have hunbroken : ∀ c ∈ status.text.toList, decide (c ≠ '\n') = true := by
      intro c hc
      exact decide_eq_true (ne_of_mem_of_not_mem hc (unbroken_text status))
    simp only [String.toList_append, List.append_assoc]
    rw [List.takeWhile_append_of_pos hunbroken]
    simp
  have hrest : status'.text ++ "\nsolve time = " ++ time ++ "\n" =
      status.text ++ "\nsolve time = " ++ time ++ "\n" := by
    simpa only [String.append_assoc, String.append_right_inj] using h'.symm.trans h
  apply text_injective
  rw [← String.toList_inj, ← hline status', hrest, hline]

end Table

end InteriorPoint.Report

end NonlinearOpt
