import NonlinearOpt.Json.Value

namespace NonlinearOpt.Json

structure Codec (T : Type) where
  shape : Shape
  encode : T → Value
  /-- Meant for values of the shape; any other becomes some element of the type. -/
  decode : Value → T

structure Field (T : Type) where
  name : String
  shape : Shape
  get : T → Value
  set : Value → T → T

namespace Codec

def number : Codec Float := ⟨.number, .number, fun | .number x => x | _ => 0⟩

def natural (bits : Nat) : Codec Nat :=
  ⟨.natural (Nat.pow 2 bits - 1), .natural, fun | .natural n => n | _ => 0⟩

def flag : Codec Bool := ⟨.flag, .flag, fun | .flag b => b | _ => false⟩

def text : Codec String := ⟨.text, .text, fun | .text s => s | _ => ""⟩

def list {T : Type} (c : Codec T) : Codec (List T) :=
  { shape := .list c.shape
    encode := fun xs => .list (xs.map c.encode)
    decode := fun | .list vs => vs.map c.decode | _ => [] }

def array {T : Type} (c : Codec T) : Codec (Array T) :=
  { shape := .list c.shape
    encode := fun xs => .list (xs.toList.map c.encode)
    decode := fun | .list vs => (vs.map c.decode).toArray | _ => #[] }

def pair {S T : Type} (a : Codec S) (b : Codec T) : Codec (S × T) :=
  { shape := .pair a.shape b.shape
    encode := fun (x, y) => .list [a.encode x, b.encode y]
    decode := fun
      | .list [x, y] => (a.decode x, b.decode y)
      | v => (a.decode v, b.decode v) }

def option {T : Type} (c : Codec T) : Codec (Option T) :=
  { shape := .option c.shape
    encode := fun x => (x.map c.encode).getD .null
    decode := fun | .null => none | v => some (c.decode v) }

def choice {T : Type} (all : List T) (name : T → String) (default : T) : Codec T :=
  { shape := .choice (all.map name)
    encode := fun x => .text (name x)
    decode := fun
      | .text s => (all.find? (name · == s)).getD default
      | _ => default }

/-- Things of which only a part is written, and that are made from this part alone. -/
def part {S T : Type} (c : Codec S) (get : T → S) (make : S → T) : Codec T :=
  { shape := c.shape
    encode := fun t => c.encode (get t)
    decode := fun v => make (c.decode v) }

end Codec

namespace Field

def of {S T : Type} (name : String) (c : Codec S) (get : T → S) (set : S → T → T) : Field T :=
  ⟨name, c.shape, fun t => c.encode (get t), fun v t => set (c.decode v) t⟩

def setAll {T : Type} (fields : List (Field T)) (found : List (String × Value)) (t : T) : T :=
  fields.foldl (fun t f =>
    match found.lookup f.name with
    | some v => f.set v t
    | none => t) t

end Field

namespace Codec

/-- A record type. Open records may leave out fields, which then are those of `base`. -/
def record {T : Type} (fields : List (Field T)) (isOpen : Bool) (base : T) : Codec T :=
  { shape := .record (fields.map fun f => (f.name, f.shape)) isOpen
    encode := fun t => .record (fields.map fun f => (f.name, f.get t))
    decode := fun
      | .record found => Field.setAll fields found base
      | _ => base }

def write {T : Type} [Format] (c : Codec T) (t : T) : String := Format.write (c.encode t)

def parse {T : Type} [Format] (c : Codec T) (text : String) : Except Fault T :=
  (Format.parse c.shape text).map c.decode

end Codec

end NonlinearOpt.Json
