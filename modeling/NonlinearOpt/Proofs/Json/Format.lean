import Mathlib
import NonlinearOpt.Json.Value

/-!
What is assumed of a format, and what follows for whole values. A value of a shape is read back where
it was written, with two exceptions: floats that are not finite are written as `null`, which is read
as an optional value that is not there, and is a mismatch wherever a number is required.
-/

namespace NonlinearOpt.Json

namespace Value

def isNull : Value → Bool
  | null => true
  | number x => !x.isFinite
  | _ => false

end Value

namespace Shape

mutual

def Fits : Shape → Value → Prop
  | number, .number _ => True
  | natural limit, .natural n => n ≤ limit ∧ limit < 2 ^ 64
  | flag, .flag _ => True
  | text, .text _ => True
  | list item, .list vs => ∀ v ∈ vs, item.Fits v
  | pair a b, .list [x, y] => a.Fits x ∧ b.Fits y
  | option a, v => v = .null ∨ a.Fits v
  | choice names, .text s => s ∈ names
  | record fields _, .record found => FitsAll fields found ∧ (fields.map Prod.fst).Nodup
  | _, _ => False

def FitsAll : List (String × Shape) → List (String × Value) → Prop
  | [], [] => True
  | (name, shape) :: fields, (name', v) :: found =>
    name' = name ∧ shape.Fits v ∧ FitsAll fields found
  | _, _ => False

end

mutual

/-- What is read where a value was written, unless that is a mismatch. -/
def reread : Shape → Value → Option Value
  | number, .number x => if x.isFinite then some (.number x) else none
  | list item, .list vs => (vs.mapM item.reread).map .list
  | pair a b, .list [x, y] => do return .list [← a.reread x, ← b.reread y]
  | option a, v => if v.isNull then some .null else a.reread v
  | record fields _, .record found => (rereadAll fields found).map .record
  | _, v => some v

def rereadAll : List (String × Shape) → List (String × Value) → Option (List (String × Value))
  | (_, shape) :: fields, (name, v) :: found => do
    return (name, ← shape.reread v) :: (← rereadAll fields found)
  | _, _ => some []

end

end Shape

section Answers

variable {β γ : Type}

def answered (x : Option β) : Except Fault β := x.elim (.error .mismatch) .ok

theorem answered_map (f : β → γ) (x : Option β) : answered (x.map f) = (answered x).map f := by
  cases x <;> rfl

theorem mapM_eq_answered {f : β → Except Fault γ} {g : β → Option γ} {xs : List β}
    (h : ∀ x ∈ xs, f x = answered (g x)) : xs.mapM f = answered (xs.mapM g) := by
  induction xs with
  | nil => rfl
  | cons x xs ih =>
    rw [List.mapM_cons, List.mapM_cons, h x List.mem_cons_self,
      ih fun y hy => h y (List.mem_cons_of_mem x hy)]
    cases g x with
    | none => rfl
    | some y => cases xs.mapM g <;> rfl

end Answers

namespace Format

open Shape

section Laws

variable [Format]

def parseAll : List (String × Shape) → List (String × Value) →
    Except Fault (List (String × Value))
  | (_, shape) :: fields, (name, v) :: found => do
    return (name, ← parse shape (write v)) :: (← parseAll fields found)
  | _, _ => .ok []

/-- What is assumed of a format. The parts of a value are read as if each were in a text of its
own. -/
structure Faithful : Prop where
  write_of_not_finite : ∀ x : Float, x.isFinite = false → write (.number x) = write .null
  number_of_null : parse .number (write .null) = .error .mismatch
  option_of_null : ∀ shape, parse (.option shape) (write .null) = .ok .null
  number : ∀ x : Float, x.isFinite = true → parse .number (write (.number x)) = .ok (.number x)
  natural : ∀ limit n, n ≤ limit → limit < 2 ^ 64 →
    parse (.natural limit) (write (.natural n)) = .ok (.natural n)
  flag : ∀ b, parse .flag (write (.flag b)) = .ok (.flag b)
  text : ∀ s, parse .text (write (.text s)) = .ok (.text s)
  choice : ∀ names, ∀ s ∈ names, parse (.choice names) (write (.text s)) = .ok (.text s)
  option : ∀ shape v, v.isNull = false → shape.Fits v →
    parse (.option shape) (write v) = parse shape (write v)
  list : ∀ shape vs, (∀ v ∈ vs, shape.Fits v) →
    parse (.list shape) (write (.list vs)) = (vs.mapM fun v => parse shape (write v)).map .list
  pair : ∀ a b x y, a.Fits x → b.Fits y → parse (.pair a b) (write (.list [x, y])) =
    do return .list [← parse a (write x), ← parse b (write y)]
  record : ∀ fields isOpen found, FitsAll fields found → (fields.map Prod.fst).Nodup →
    parse (.record fields isOpen) (write (.record found)) = (parseAll fields found).map .record

theorem parseAll_eq_answered {fields : List (String × Shape)} {found : List (String × Value)}
    (h : ∀ f ∈ fields, ∀ v, f.2.Fits v → parse f.2 (write v) = answered (f.2.reread v))
    (hfits : FitsAll fields found) : parseAll fields found = answered (rereadAll fields found) := by
  induction fields generalizing found with
  | nil =>
    cases found with
    | nil => rfl
    | cons => exact hfits.elim
  | cons f fields ih =>
    obtain ⟨name, shape⟩ := f
    cases found with
    | nil => exact hfits.elim
    | cons value found =>
      obtain ⟨hshape, hfields⟩ := List.forall_mem_cons.mp h
      obtain ⟨-, hv, hfound⟩ := hfits
      rw [parseAll, hshape value.2 hv, ih hfields hfound, rereadAll]
      cases shape.reread value.2 with
      | none => rfl
      | some w => cases rereadAll fields found <;> rfl

end Laws

namespace Faithful

variable [Format]

theorem write_of_isNull (h : Faithful) {v : Value} (hv : v.isNull = true) :
    write v = write .null := by
  cases v with
  | null => rfl
  | number x => exact h.write_of_not_finite x (by simpa [Value.isNull] using hv)
  | _ => cases hv

mutual

/-- Reading a written value of a shape gives the value that is read back, or a mismatch. -/
theorem parse_write (h : Faithful) : (shape : Shape) → {v : Value} → shape.Fits v →
    parse shape (write v) = answered (shape.reread v)
  | .number, .number x, _ => by
    rw [reread]
    split
    next hx => exact h.number x hx
    next hx =>
      rw [h.write_of_not_finite x (Bool.eq_false_iff.mpr hx)]
      exact h.number_of_null
  | .natural limit, .natural n, hv => h.natural limit n hv.1 hv.2
  | .flag, .flag b, _ => h.flag b
  | .text, .text s, _ => h.text s
  | .choice names, .text s, hv => h.choice names s hv
  | .list item, .list vs, hv => by
    rw [h.list item vs hv, mapM_eq_answered fun v hmem => parse_write h item (hv v hmem),
      ← answered_map, reread]
  | .pair a b, .list [x, y], hv => by
    rw [h.pair a b x y hv.1 hv.2, parse_write h a hv.1, parse_write h b hv.2, reread]
    cases a.reread x with
    | none => rfl
    | some x' => cases b.reread y <;> rfl
  | .option a, v, hv => by
    rw [reread]
    cases hnull : v.isNull with
    | true =>
      rw [h.write_of_isNull hnull]
      exact h.option_of_null a
    | false =>
      have hfits : a.Fits v := by
        refine hv.resolve_left ?_
        rintro rfl
        cases hnull
      rw [h.option a v hnull hfits]
      exact parse_write h a hfits
  | .record fields isOpen, .record found, hv => by
    rw [h.record fields isOpen found hv.1 hv.2, parseAll_eq_answered (parse_writes h fields) hv.1,
      ← answered_map, reread]

theorem parse_writes (h : Faithful) : (fields : List (String × Shape)) → ∀ f ∈ fields, ∀ v,
    f.2.Fits v → parse f.2 (write v) = answered (f.2.reread v)
  | [], _, hf, _, _ => nomatch hf
  | (name, shape) :: fields, f, hf, v, hv => by
    rcases List.mem_cons.mp hf with rfl | hf
    · exact parse_write h shape hv
    · exact parse_writes h fields f hf v hv

end

end Faithful

end Format

end NonlinearOpt.Json
