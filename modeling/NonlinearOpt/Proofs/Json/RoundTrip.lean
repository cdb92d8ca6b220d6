import NonlinearOpt.Json.Codec
import NonlinearOpt.Proofs.Json.Format
import Mathlib.Data.List.Basic

namespace NonlinearOpt.Json

variable {S T : Type}

namespace Codec

def Fits (c : Codec T) (t : T) : Prop := c.shape.Fits (c.encode t)

/-- What is read where something was written, unless that is a mismatch. -/
def returned (c : Codec T) (t : T) : Option T := (c.shape.reread (c.encode t)).map c.decode

theorem map_decode (c : Codec T) (xs : List T) :
    ((xs.map c.encode).mapM c.shape.reread).map (List.map c.decode) = xs.mapM c.returned := by
  induction xs with
  | nil => rfl
  | cons x xs ih =>
    rw [List.map_cons, List.mapM_cons, List.mapM_cons, ← ih, returned]
    cases c.shape.reread (c.encode x) with
    | none => rfl
    | some v => cases (xs.map c.encode).mapM c.shape.reread <;> rfl

theorem returned_option_array (c : Codec T) (xs : Array T) :
    (option (array c)).returned (some xs) = ((array c).returned xs).map some := by
  unfold returned
  show (((Shape.option (.list c.shape)).reread (.list (xs.toList.map c.encode))).map _ :
    Option (Option (Array T))) = (((Shape.list c.shape).reread (.list _)).map _).map _
  have hnull : (Value.list (xs.toList.map c.encode)).isNull = false := rfl
  rw [Shape.reread, Shape.reread, hnull, if_neg (by decide), Shape.reread]
  cases (xs.toList.map c.encode).mapM c.shape.reread <;> rfl

/-- What is written for `t` is read as `t'`, provided that certain numbers are finite. -/
structure Keeps (c : Codec T) (t : T) (numbers : List Float) (t' : T) : Prop where
  fits : c.Fits t
  returned : c.returned t = if numbers.all Float.isFinite then some t' else none

namespace Keeps

variable {c : Codec T}

theorem parse_write [Format] (hformat : Format.Faithful) {t t' : T} {numbers : List Float}
    (h : c.Keeps t numbers t') :
    c.parse (c.write t) =
      if numbers.all Float.isFinite then .ok t' else .error .mismatch := by
  have hreturned : (Format.parse c.shape (Format.write (c.encode t))).map c.decode =
      answered (c.returned t) := by
    unfold Codec.returned
    rw [hformat.parse_write c.shape h.fits, answered_map]
  unfold parse write
  rw [hreturned, h.returned]
  cases numbers.all Float.isFinite <;> rfl

theorem number (x : Float) : Codec.number.Keeps x [x] x where
  fits := trivial
  returned := by
    show ((if x.isFinite then some (Value.number x) else none).map _ : Option Float) = _
    rw [List.all_cons, List.all_nil, Bool.and_true]
    cases x.isFinite <;> rfl

theorem natural {bits n : Nat} (hbits : bits ≤ 64) (hn : n < 2 ^ bits) :
    (Codec.natural bits).Keeps n [] n where
  fits := by
    have hpos : 0 < 2 ^ bits := Nat.two_pow_pos bits
    have hle : 2 ^ bits ≤ 2 ^ 64 := Nat.pow_le_pow_right (by decide) hbits
    show n ≤ 2 ^ bits - 1 ∧ 2 ^ bits - 1 < 2 ^ 64
    omega
  returned := rfl

theorem flag (b : Bool) : Codec.flag.Keeps b [] b := ⟨trivial, rfl⟩

theorem text (s : String) : Codec.text.Keeps s [] s := ⟨trivial, rfl⟩

theorem choice {all : List T} {name : T → String} {default x : T}
    (h : all.find? (name · == name x) = some x) : (choice all name default).Keeps x [] x where
  fits := List.mem_map_of_mem (List.mem_of_find?_eq_some h)
  returned := by
    show some ((all.find? (name · == name x)).getD default) = some x
    rw [h]
    rfl

theorem pair {a : Codec S} {b : Codec T} {x x' : S} {y y' : T} {ns ms : List Float}
    (hx : a.Keeps x ns x') (hy : b.Keeps y ms y') :
    (pair a b).Keeps (x, y) (ns ++ ms) (x', y') where
  fits := ⟨hx.fits, hy.fits⟩
  returned := by
    have hpair : (Codec.pair a b).returned (x, y) =
        do return (← a.returned x, ← b.returned y) := by
      unfold Codec.returned
      show (((a.shape.pair b.shape).reread (.list [a.encode x, b.encode y])).map _ :
        Option (S × T)) = _
      rw [Shape.reread]
      cases a.shape.reread (a.encode x) with
      | none => rfl
      | some v => cases b.shape.reread (b.encode y) <;> rfl
    rw [hpair, hx.returned, hy.returned, List.all_append]
    cases ns.all Float.isFinite <;> cases ms.all Float.isFinite <;> rfl

theorem mapM_returned {xs : List T} {numbers : T → List Float}
    (h : ∀ x ∈ xs, c.Keeps x (numbers x) x) :
    xs.mapM c.returned =
      if (xs.flatMap numbers).all Float.isFinite then some xs else none := by
  induction xs with
  | nil => rfl
  | cons x xs ih =>
    rw [List.mapM_cons, (h x List.mem_cons_self).returned,
      ih fun y hy => h y (List.mem_cons_of_mem x hy), List.flatMap_cons, List.all_append]
    cases (numbers x).all Float.isFinite <;> cases (xs.flatMap numbers).all Float.isFinite <;> rfl

theorem list {xs : List T} {numbers : T → List Float} (h : ∀ x ∈ xs, c.Keeps x (numbers x) x) :
    (list c).Keeps xs (xs.flatMap numbers) xs where
  fits := List.forall_mem_map.mpr fun x hx => (h x hx).fits
  returned := by
    rw [← mapM_returned h, ← map_decode]
    show ((((xs.map c.encode).mapM c.shape.reread).map Value.list).map _ : Option (List T)) = _
    rw [Option.map_map]
    rfl

theorem array {xs : Array T} {numbers : T → List Float} (h : ∀ x ∈ xs, c.Keeps x (numbers x) x) :
    (array c).Keeps xs (xs.toList.flatMap numbers) xs := by
  have hitems (x : T) (hx : x ∈ xs.toList) : c.Keeps x (numbers x) x :=
    h x (Array.mem_toList_iff.mp hx)
  refine ⟨List.forall_mem_map.mpr fun x hx => (hitems x hx).fits, ?_⟩
  have hreturned : (Codec.array c).returned xs = (xs.toList.mapM c.returned).map List.toArray := by
    rw [← map_decode]
    show ((((xs.toList.map c.encode).mapM c.shape.reread).map Value.list).map _ :
      Option (Array T)) = _
    rw [Option.map_map, Option.map_map]
    rfl
  rw [hreturned, mapM_returned hitems]
  cases (xs.toList.flatMap numbers).all Float.isFinite <;> rfl

theorem plainList {xs : List T} (h : ∀ x, c.Keeps x [] x) : (Codec.list c).Keeps xs [] xs := by
  have hlist : (Codec.list c).Keeps xs (xs.flatMap fun _ => []) xs := list fun x _ => h x
  rwa [List.flatMap_eq_nil_iff.mpr fun _ _ => rfl] at hlist

theorem numbers (xs : Array Float) : (Codec.array .number).Keeps xs xs.toList xs := by
  have harray : (Codec.array .number).Keeps xs (xs.toList.flatMap fun x => [x]) xs :=
    array fun x _ => number x
  rwa [List.flatMap_singleton'] at harray

theorem optionNumbers (x : Option (Array Float)) :
    (Codec.option (.array .number)).Keeps x (x.elim [] Array.toList) x := by
  cases x with
  | none => exact ⟨.inl rfl, rfl⟩
  | some xs =>
    have hxs := numbers xs
    refine ⟨.inr hxs.fits, ?_⟩
    rw [returned_option_array, hxs.returned, Option.elim_some]
    cases xs.toList.all Float.isFinite <;> rfl

theorem optionNumber (x : Option Float) :
    (Codec.option .number).Keeps x [] (x.filter Float.isFinite) := by
  cases x with
  | none => exact ⟨.inl rfl, rfl⟩
  | some x =>
    refine ⟨.inr trivial, ?_⟩
    unfold Codec.returned
    show (((Shape.option .number).reread (.number x)).map _ : Option (Option Float)) = _
    rw [Shape.reread, Value.isNull, Shape.reread, Option.filter_some]
    cases x.isFinite <;> rfl

theorem part {c : Codec S} {get : T → S} {make : S → T} {t : T} {s : S} {ns : List Float}
    (h : c.Keeps (get t) ns s) : (c.part get make).Keeps t ns (make s) where
  fits := h.fits
  returned := by
    have hreturned : (c.part get make).returned t = (c.returned (get t)).map make := by
      unfold Codec.returned
      rw [Option.map_map]
      rfl
    rw [hreturned, h.returned]
    cases ns.all Float.isFinite <;> rfl

end Keeps

end Codec

namespace Field

def returnedAll : List (Field T) → T → Option (T → T)
  | [], _ => some id
  | f :: fields, t => do
    let set ← (f.shape.reread (f.get t)).map f.set
    let rest ← returnedAll fields t
    return rest ∘ set

/-- The fields of `t` are read by `restore`, provided that certain numbers are finite. -/
structure Keeps (fields : List (Field T)) (t : T) (numbers : List Float) (restore : T → T) :
    Prop where
  fits : ∀ f ∈ fields, f.shape.Fits (f.get t)
  returned : returnedAll fields t = if numbers.all Float.isFinite then some restore else none

namespace Keeps

variable {t : T} {numbers ns : List Float} {restore : T → T} {fields : List (Field T)}

theorem nil : Keeps [] t [] id := ⟨nofun, rfl⟩

theorem cons {c : Codec S} {name : String} {get : T → S} {set : S → T → T} {s : S}
    (hfield : c.Keeps (get t) ns s) (h : Keeps fields t numbers restore) :
    Keeps (of name c get set :: fields) t (ns ++ numbers) (restore ∘ set s) where
  fits := List.forall_mem_cons.mpr ⟨hfield.fits, h.fits⟩
  returned := by
    have hset : (c.shape.reread (c.encode (get t))).map (of name c get set).set =
        (c.returned (get t)).map set := by
      unfold Codec.returned
      rw [Option.map_map]
      rfl
    unfold returnedAll
    show ((c.shape.reread (c.encode (get t))).map (of name c get set).set >>= _) = _
    rw [hset, hfield.returned, h.returned, List.all_append]
    cases ns.all Float.isFinite <;> cases numbers.all Float.isFinite <;> rfl

end Keeps

theorem setAll_cons_of_not_mem {name : String} {fields : List (Field T)}
    (h : name ∉ fields.map Field.name) (v : Value) (found : List (String × Value)) (t : T) :
    setAll fields ((name, v) :: found) t = setAll fields found t := by
  apply List.foldl_ext
  intro u f hf
  have hne : f.name ≠ name := fun heq => h (List.mem_map.mpr ⟨f, hf, heq⟩)
  rw [List.lookup_cons, beq_false_of_ne hne]

/-- The names of the fields are told apart, so each finds its own value. -/
theorem map_setAll {fields : List (Field T)} (hnodup : (fields.map Field.name).Nodup) (t : T) :
    (Shape.rereadAll (fields.map fun f => (f.name, f.shape))
      (fields.map fun f => (f.name, f.get t))).map (setAll fields) = returnedAll fields t := by
  induction fields with
  | nil => rfl
  | cons f fields ih =>
    obtain ⟨hfresh, hnodup⟩ := List.nodup_cons.mp hnodup
    rw [List.map_cons, List.map_cons, Shape.rereadAll, returnedAll, ← ih hnodup]
    cases f.shape.reread (f.get t) with
    | none => rfl
    | some v =>
      cases Shape.rereadAll _ _ with
      | none => rfl
      | some found =>
        show some (setAll (f :: fields) ((f.name, v) :: found)) =
          some (setAll fields found ∘ f.set v)
        congr 1
        funext u
        have hfirst : setAll (f :: fields) ((f.name, v) :: found) u =
            setAll fields ((f.name, v) :: found) (f.set v u) := by
          unfold setAll
          rw [List.foldl_cons, List.lookup_cons_self]
        exact hfirst.trans (setAll_cons_of_not_mem hfresh v found _)

end Field

namespace Codec

theorem Keeps.record {fields : List (Field T)} {t : T} {numbers : List Float} {restore : T → T}
    (h : Field.Keeps fields t numbers restore) (hnodup : (fields.map Field.name).Nodup)
    (isOpen : Bool) (base : T) : (record fields isOpen base).Keeps t numbers (restore base) where
  fits := by
    have hall (fields : List (Field T)) (h : ∀ f ∈ fields, f.shape.Fits (f.get t)) :
        Shape.FitsAll (fields.map fun f => (f.name, f.shape))
          (fields.map fun f => (f.name, f.get t)) := by
      induction fields with
      | nil => trivial
      | cons f fields ih =>
        obtain ⟨hf, hfields⟩ := List.forall_mem_cons.mp h
        exact ⟨rfl, hf, ih hfields⟩
    refine ⟨hall fields h.fits, ?_⟩
    rw [List.map_map]
    exact hnodup
  returned := by
    have hreturned : (Codec.record fields isOpen base).returned t =
        (Field.returnedAll fields t).map (· base) := by
      rw [← Field.map_setAll hnodup, Option.map_map]
      show (((Shape.rereadAll _ _).map Value.record).map _ : Option T) = _
      rw [Option.map_map]
      rfl
    rw [hreturned, h.returned]
    cases numbers.all Float.isFinite <;> rfl

end Codec

end NonlinearOpt.Json
