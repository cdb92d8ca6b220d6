import NonlinearOpt.Json.Skip
import NonlinearOpt.Json.Write

/-!
Reading values of a known shape from tokens. The first fault from the left is reported. Records may
be written as objects, in which unknown fields are skipped, or as lists of their fields in order.
-/

namespace NonlinearOpt.Json

abbrev Reader (β : Type) := Stream → Except Fault (β × Stream)

namespace Stream

def size : Stream → Nat
  | done | broken .. => 0
  | next _ rest => rest.size + 1

/-- The fault of a stream whose front is not what is read. Punctuation is no value at all; anything
else is a value of another kind, if it can be represented. -/
def unexpected : Stream → Fault
  | done => .truncated
  | broken _ read _ => read
  | next t _ =>
    match t with
    | .null | .bool _ | .openBrace | .openBracket => .mismatch
    | .number n => if n.toFloat?.isSome then .mismatch else .malformed
    | .text (.ok _) => .mismatch
    | .text (.error f) => f
    | .closeBrace | .closeBracket | .colon | .comma => .malformed

def unpunctuated : Stream → Fault
  | done => .truncated
  | _ => .malformed

end Stream

namespace Reader

def number : Reader Float
  | .next (.number n) rest =>
    match n.toFloat? with
    | some x => .ok (x, rest)
    | none => .error .malformed
  | s => .error s.unexpected

def natural (limit : Nat) : Reader Nat
  | .next (.number n) rest =>
    if n.toFloat?.isNone then .error .malformed
    else match n.toNat? with
      | some k => if k ≤ limit then .ok (k, rest) else .error .mismatch
      | none => .error .mismatch
  | s => .error s.unexpected

def flag : Reader Bool
  | .next (.bool b) rest => .ok (b, rest)
  | s => .error s.unexpected

def text : Reader String
  | .next (.text (.ok cs)) rest => .ok (String.ofList cs, rest)
  | s => .error s.unexpected

def colon : Reader Unit
  | .next .colon rest => .ok ((), rest)
  | s => .error s.unpunctuated

def null : Reader Unit
  | .next .null rest => .ok ((), rest)
  | s => .error s.unexpected

def key : Reader String
  | .next (.text (.ok cs)) rest => .ok (String.ofList cs, rest)
  | .next (.text (.error f)) _ => .error f
  | .broken .text read _ => .error read
  | s => .error s.unpunctuated

def name (names : List String) (read : Reader String) : Reader String := fun s => do
  let (t, rest) ← read s
  if names.contains t then return (t, rest) else throw .mismatch

def closeChoice : Reader Unit
  | .next .closeBrace rest => .ok ((), rest)
  | s => .error s.unpunctuated

/-- A name, or an object in which it is the only field and has no value. -/
def choice (names : List String) : Reader String
  | .next .openBrace s => do
    let (t, s) ← name names key s
    let ((), s) ← colon s
    let ((), s) ← null s
    let ((), s) ← closeChoice s
    return (t, s)
  | .next (.text t) s => name names text (.next (.text t) s)
  | .done => .error .truncated
  | .broken lead read _ => .error (if lead = .text then read else .malformed)
  | .next .. => .error .malformed

def option {β : Type} (some : Reader β) : Reader (Option β)
  | .next .null rest => .ok (none, rest)
  | s => (some s).map fun (x, rest) => (.some x, rest)

/-- The next element of a list, if the list does not end here. The end is not taken. -/
def element {β : Type} (item : Reader β) (isFirst : Bool) : Reader (Option β)
  | .next .closeBracket rest => .ok (none, .next .closeBracket rest)
  | .next .comma (.next .closeBracket rest) =>
    if isFirst then (item (.next .comma (.next .closeBracket rest))).map fun (x, s) => (some x, s)
    else .error .malformed
  | .next .comma rest =>
    if isFirst then (item (.next .comma rest)).map fun (x, s) => (some x, s)
    else (item rest).map fun (x, s) => (some x, s)
  | .done => .error .truncated
  | s =>
    if isFirst then (item s).map fun (x, s) => (some x, s) else .error .malformed

def closeList : Reader Unit
  | .next .closeBracket rest => .ok ((), rest)
  | s => .error s.unpunctuated

def elements {β : Type} (item : Reader β) : (fuel : Nat) → (isFirst : Bool) → Reader (List β)
  | 0, _, s => .error s.unpunctuated
  | fuel + 1, isFirst, s => do
    match ← element item isFirst s with
    | (none, s) => return ([], s)
    | (some x, s) =>
      let (xs, s) ← elements item fuel false s
      return (x :: xs, s)

def list {β : Type} (item : Reader β) : Reader (List β)
  | .next .openBracket s => do
    let (xs, s) ← elements item (s.size + 1) true s
    let ((), s) ← closeList s
    return (xs, s)
  | s => .error s.unexpected

def required {β : Type} (item : Reader β) (isFirst : Bool) : Reader β := fun s => do
  match ← element item isFirst s with
  | (some x, s) => return (x, s)
  | (none, _) => throw .mismatch

def pair {β γ : Type} (first : Reader β) (second : Reader γ) : Reader (β × γ)
  | .next .openBracket s => do
    let (x, s) ← required first true s
    let (y, s) ← required second false s
    let ((), s) ← closeList s
    return ((x, y), s)
  | s => .error s.unexpected

def nextKey (isFirst : Bool) : Reader (Option String)
  | .next .closeBrace rest => .ok (none, rest)
  | .next .comma rest =>
    if isFirst then .error .malformed else (key rest).map fun (k, s) => (some k, s)
  | s =>
    if isFirst then (key s).map fun (k, s) => (some k, s) else .error s.unpunctuated

structure FieldReader where
  name : String
  isOption : Bool
  read : Reader Value

/-- The fields of an object, in the order in which they are written. A field that is known may occur
once only. -/
def members (fields : List FieldReader) :
    (fuel : Nat) → (isFirst : Bool) → List (String × Value) → Reader (List (String × Value))
  | 0, _, _, s => .error s.unpunctuated
  | fuel + 1, isFirst, found, s => do
    match ← nextKey isFirst s with
    | (none, s) => return (found.reverse, s)
    | (some k, s) =>
      match fields.find? (·.name == k) with
      | none =>
        let ((), s) ← colon s
        members fields fuel false found (← s.skipValue)
      | some field =>
        if (found.lookup k).isSome then throw .mismatch
        else
          let ((), s) ← colon s
          let (v, s) ← field.read s
          members fields fuel false ((k, v) :: found) s

/-- Whether all fields are there that have to be. Optional values may be left out of objects. -/
def isComplete (fields : List FieldReader) (found : List (String × Value)) : Bool :=
  fields.all fun f => f.isOption || (found.lookup f.name).isSome

def object (fields : List FieldReader) (isOpen : Bool) : Reader Value := fun s => do
  let (found, s) ← members fields (s.size + 1) true [] s
  if isOpen || isComplete fields found then return (.record found, s) else throw .mismatch

def inOrder (isOpen : Bool) : (isFirst : Bool) → List FieldReader → Reader (List (String × Value))
  | _, [], s => .ok ([], s)
  | isFirst, f :: fs, s => do
    match ← element f.read isFirst s with
    | (some v, s) =>
      let (found, s) ← inOrder isOpen false fs s
      return ((f.name, v) :: found, s)
    | (none, s) => if isOpen then return ([], s) else throw .mismatch

def record (fields : List FieldReader) (isOpen : Bool) : Reader Value
  | .next .openBrace s => object fields isOpen s
  | .next .openBracket s => do
    let (found, s) ← inOrder isOpen true fields s
    let ((), s) ← closeList s
    return (.record found, s)
  | s => .error s.unexpected

end Reader

namespace Shape

mutual

def read : Shape → Reader Value
  | number => fun s => (Reader.number s).map fun (x, s) => (.number x, s)
  | natural limit => fun s => (Reader.natural limit s).map fun (n, s) => (.natural n, s)
  | flag => fun s => (Reader.flag s).map fun (b, s) => (.flag b, s)
  | text => fun s => (Reader.text s).map fun (t, s) => (.text t, s)
  | list item => fun s => (Reader.list item.read s).map fun (xs, s) => (.list xs, s)
  | pair a b => fun s => (Reader.pair a.read b.read s).map fun ((x, y), s) => (.list [x, y], s)
  | option a => fun s => (Reader.option a.read s).map fun (x, s) => (x.getD .null, s)
  | choice names => fun s => (Reader.choice names s).map fun (t, s) => (.text t, s)
  | record fields isOpen => Reader.record (readers fields) isOpen

def readers : List (String × Shape) → List Reader.FieldReader
  | [] => []
  | (name, shape) :: fields => ⟨name, shape.isOption, shape.read⟩ :: readers fields

end

def parse (shape : Shape) (text : String) : Except Fault Value := do
  let (v, rest) ← shape.read (Stream.ofString text)
  match rest with
  | .done => return v
  | _ => throw .malformed

end Shape

instance compact : Format := ⟨Value.write, Shape.parse⟩

end NonlinearOpt.Json
