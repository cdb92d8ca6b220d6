/-!
Decimal numbers and the floats nearest to them. Both directions work on exact integers: a float is
taken apart into `mantissa * 2 ^ exponent`, and the decimals that read back as it are those between
the midpoints to its neighbours.
-/

namespace NonlinearOpt

structure Decimal where
  negative : Bool
  digits : Nat
  exponent : Int
  deriving DecidableEq, Repr

structure Ratio where
  num : Nat
  den : Nat
  deriving Repr

namespace Ratio

def binary (k : Nat) (e : Int) : Ratio := ⟨k * Nat.pow 2 e.toNat, Nat.pow 2 (-e).toNat⟩

def decimal (c : Nat) (g : Int) : Ratio := ⟨c * Nat.pow 10 g.toNat, Nat.pow 10 (-g).toNat⟩

def lt (r s : Ratio) : Bool := decide (r.num * s.den < s.num * r.den)

def le (r s : Ratio) : Bool := decide (r.num * s.den ≤ s.num * r.den)

/-- The largest multiple of `10 ^ g` that is not above the ratio, counted in steps of `10 ^ g`. -/
def floorAt (r : Ratio) (g : Int) : Nat :=
  r.num * Nat.pow 10 (-g).toNat / (r.den * Nat.pow 10 g.toNat)

def roundAt (r : Ratio) (g : Int) : Nat :=
  let top := r.num * Nat.pow 10 (-g).toNat
  let bottom := r.den * Nat.pow 10 g.toNat
  let q := top / bottom
  let twice := 2 * (top % bottom)
  if twice < bottom then q else if bottom < twice then q + 1 else q + q % 2

def magnitude (r : Ratio) : Int :=
  if r.den ≤ r.num then ((toString (r.num / r.den)).length : Int) - 1
  else
    let len := (toString (r.den / r.num)).length
    if r.den ≤ r.num * Nat.pow 10 (len - 1) then 1 - (len : Int) else -(len : Int)

end Ratio

structure Binary where
  negative : Bool
  mantissa : Nat
  exponent : Int
  deriving Repr

namespace Binary

def leading : Nat := 0x10000000000000

def ofFloat (x : Float) : Binary :=
  let bits := x.toBits.toNat
  let e : Nat := bits / leading % 0x800
  let f := bits % leading
  let negative := bits / 0x8000000000000000 == 1
  if e = 0 then ⟨negative, f, -1074⟩ else ⟨negative, f + leading, (e : Int) - 1075⟩

def ratio (b : Binary) : Ratio := Ratio.binary b.mantissa b.exponent

def nearBelow (b : Binary) : Bool := b.mantissa == leading && decide (-1074 < b.exponent)

def covers (b : Binary) (r : Ratio) : Bool :=
  let low := Ratio.binary (4 * b.mantissa - if b.nearBelow then 1 else 2) (b.exponent - 2)
  let high := Ratio.binary (4 * b.mantissa + 2) (b.exponent - 2)
  if b.mantissa % 2 = 0 then low.le r && r.le high else low.lt r && r.lt high

end Binary

namespace Decimal

/-- The shortest decimal that reads back as a finite float, of several the nearest one. Digit counts
are tried in turn; on each grid only the two neighbours of the float can be hits. -/
def shortest (x : Float) : Decimal :=
  let b := Binary.ofFloat x
  if b.mantissa = 0 then ⟨b.negative, 0, 0⟩
  else
    let r := b.ratio
    let (c, g) := search b r r.magnitude 17 1
    strip b.negative 20 c g
where
  search (b : Binary) (r : Ratio) (e : Int) : Nat → Nat → Nat × Int
    | 0, d => (r.floorAt (e - d + 1), e - d + 1)
    | fuel + 1, d =>
      let g := e - d + 1
      let c := r.floorAt g
      let below := b.covers (.decimal c g)
      let above := b.covers (.decimal (c + 1) g)
      let closerBelow := Ratio.lt ⟨2 * r.num, r.den⟩ (.decimal (2 * c + 1) g)
      if below && (closerBelow || !above) then (c, g)
      else if above then (c + 1, g)
      else search b r e fuel (d + 1)
  strip (negative : Bool) : Nat → Nat → Int → Decimal
    | 0, c, g => ⟨negative, c, g⟩
    | fuel + 1, c, g => if c % 10 = 0 then strip negative fuel (c / 10) (g + 1) else ⟨negative, c, g⟩

/-- The float nearest to a decimal, infinite beyond the largest one. Exponents far outside the range
of floats are settled without computing the power. -/
def toFloat (d : Decimal) : Float :=
  let size := d.exponent + (toString d.digits).length
  let magnitude :=
    if d.digits = 0 ∨ size < -400 then 0.0
    else if 400 < size then 1.0 / 0.0
    else Float.ofScientific d.digits (decide (d.exponent < 0)) d.exponent.natAbs
  if d.negative then -magnitude else magnitude

end Decimal

end NonlinearOpt
