import NonlinearOpt.Text.Decimal

/-!
The written forms of floats: positional, scientific with a given number of places, and fixed point.
Shortest forms use the fewest digits that read back; forms with a given number of places are
rounded from the exact value, ties to the even digit.
-/

namespace NonlinearOpt

namespace Number

def zeros (n : Nat) : String := String.ofList (List.replicate n '0')

def pointAfter (digits : String) (k : Nat) : String :=
  String.ofList (digits.toList.take k) ++ "." ++ String.ofList (digits.toList.drop k)

def sign (negative plus : Bool) : String :=
  if negative then "-" else if plus then "+" else ""

def special (x : Float) (plus : Bool) : String :=
  if x.isNaN then "NaN" else sign (x < 0) plus ++ "inf"

def padLeft (width : Nat) (s : String) : String :=
  String.ofList (List.replicate (width - s.length) ' ') ++ s

def positional (d : Decimal) : String :=
  let s := toString d.digits
  let point : Int := s.length + d.exponent
  if d.digits = 0 then "0"
  else if point ≤ 0 then "0." ++ zeros (-point).toNat ++ s
  else if s.length ≤ point.toNat then s ++ zeros (point.toNat - s.length)
  else pointAfter s point.toNat

def withExponent (digits : String) (exponent : Int) : String :=
  (if digits.length ≤ 1 then digits else pointAfter digits 1) ++ "e" ++ toString exponent

def plain (x : Float) : String :=
  if x.isFinite then
    let d := Decimal.shortest x
    sign d.negative false ++ positional d
  else special x false

/-- The shortest form that reads back and shows that it is no integer: with a fraction, or with an
exponent from `10 ^ 16` on and below `10 ^ -4`. -/
def marked (x : Float) : String :=
  if x.isFinite then
    let d := Decimal.shortest x
    let s := toString d.digits
    sign d.negative false ++
      if d.digits ≠ 0 ∧ (1e16 ≤ x.abs ∨ x.abs < 1e-4) then
        withExponent s (d.exponent + s.length - 1)
      else if 0 ≤ d.exponent then positional d ++ ".0" else positional d
  else special x false

def scientific (places : Nat) (plus : Bool) (x : Float) : String :=
  if x.isFinite then
    let b := Binary.ofFloat x
    sign b.negative plus ++
      if b.mantissa = 0 then withExponent (zeros (places + 1)) 0
      else
        let e := b.ratio.magnitude
        let c := b.ratio.roundAt (e - places)
        if c = Nat.pow 10 (places + 1) then withExponent (toString (Nat.pow 10 places)) (e + 1)
        else withExponent (toString c) e
  else special x plus

def fixed (places : Nat) (x : Float) : String :=
  if x.isFinite then
    let b := Binary.ofFloat x
    let s := toString (b.ratio.roundAt (-(places : Int)))
    let s := zeros (places + 1 - s.length) ++ s
    sign b.negative false ++ if places = 0 then s else pointAfter s (s.length - places)
  else special x false

end Number

end NonlinearOpt
