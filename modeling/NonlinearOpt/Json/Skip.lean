import NonlinearOpt.Json.Token

namespace NonlinearOpt.Json

inductive Frame where
  | list
  | object
  deriving DecidableEq, Repr

inductive Expected where
  | value
  /-- The first element or the end of a container. -/
  | start
  | key
  | colon
  /-- A comma or the end of a container. -/
  | separator
  deriving DecidableEq, Repr

namespace Skip

def afterValue (frames : List Frame) : Option (Expected × List Frame) :=
  if frames.isEmpty then none else some (.separator, frames)

def closes (t : Token) : List Frame → Bool
  | .list :: _ => match t with | .closeBracket => true | _ => false
  | .object :: _ => match t with | .closeBrace => true | _ => false
  | [] => false

def element : List Frame → Expected
  | .object :: _ => .key
  | _ => .value

def value (frames : List Frame) : Token → Except Fault (Option (Expected × List Frame))
  | .null | .bool _ | .number _ | .text _ => .ok (afterValue frames)
  | .openBracket => .ok (some (.start, .list :: frames))
  | .openBrace => .ok (some (.start, .object :: frames))
  | _ => .error .malformed

/-- One token of a value that is skipped. There is no next state at the end of the value. -/
def step (e : Expected) (frames : List Frame) (t : Token) :
    Except Fault (Option (Expected × List Frame)) :=
  let key : Except Fault (Option (Expected × List Frame)) :=
    match t with | .text _ => .ok (some (.colon, frames)) | _ => .error .malformed
  match e with
  | .value => value frames t
  | .start =>
    if closes t frames then .ok (afterValue frames.tail)
    else if element frames = .key then key else value frames t
  | .key => key
  | .colon => match t with | .colon => .ok (some (.value, frames)) | _ => .error .malformed
  | .separator =>
    if closes t frames then .ok (afterValue frames.tail)
    else match t with | .comma => .ok (some (element frames, frames)) | _ => .error .malformed

def fault (e : Expected) (frames : List Frame) (lead : Lead) (skip : Fault) : Fault :=
  let e := if e = .start then element frames else e
  match e with
  | .value => skip
  | .key => if lead = .text then skip else .malformed
  | _ => .malformed

def run (e : Expected) (frames : List Frame) : Stream → Except Fault Stream
  | .done => .error .truncated
  | .broken lead _ skip => .error (fault e frames lead skip)
  | .next t rest =>
    match step e frames t with
    | .error f => .error f
    | .ok none => .ok rest
    | .ok (some (e, frames)) => run e frames rest

end Skip

def Stream.skipValue (s : Stream) : Except Fault Stream := Skip.run .value [] s

end NonlinearOpt.Json
