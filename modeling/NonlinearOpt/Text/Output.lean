
namespace NonlinearOpt

/-- How text reaches a place, and how the place is asked to pass it on. Either may be refused, for a
reason, and a place that refuses may have changed all the same. -/
structure Writer (ω : Type) where
  write : (text : String) → ω → Except String Unit × ω
  flush : ω → Except String Unit × ω

namespace Writer

variable {ω : Type}

def writeAll (w : Writer ω) : (pieces : List String) → ω → Except String Unit × ω
  | [], place => (.ok (), place)
  | piece :: pieces, place =>
    match w.write piece place with
    | (.ok (), place) => w.writeAll pieces place
    | (.error reason, place) => (.error reason, place)

end Writer

inductive Target where
  | stdout
  | file
  | buffer
  /-- Takes everything and keeps nothing. -/
  | sink
  | stream
  /-- A stream that refuses all text, for the given reason. -/
  | failing (reason : String)
  deriving DecidableEq, Repr

namespace Target

def label : Target → String
  | stdout => "PrintTarget::Stdout"
  | file => "PrintTarget::File"
  | buffer => "PrintTarget::Buffer"
  | sink => "PrintTarget::Sink"
  | stream | failing _ => "PrintTarget::Stream"

end Target

structure Output where
  target : Target
  buffer : String
  /-- What the latest file holds, if there was one. -/
  file : Option String
  stream : String

namespace Output

def new : Output := ⟨.stdout, "", none, ""⟩

def redirect (target : Target) (out : Output) : Output :=
  match target with
  | .buffer => { out with target, buffer := "" }
  | .file => { out with target, file := some "" }
  | .stream => { out with target, stream := "" }
  | target => { out with target }

def write (text : String) (out : Output) : Except String Output :=
  match out.target with
  | .failing reason => .error reason
  | .buffer => .ok { out with buffer := out.buffer ++ text }
  | .file => .ok { out with file := out.file.map (· ++ text) }
  | .stream => .ok { out with stream := out.stream ++ text }
  | .stdout | .sink => .ok out

def writer : Writer Output where
  write text out :=
    match out.write text with
    | .ok out => (.ok (), out)
    | .error reason => (.error reason, out)
  flush out := (.ok (), out)

def buffered? (out : Output) : Except String String :=
  match out.target with
  | .buffer => .ok out.buffer
  | _ => .error "Print buffering is not configured."

end Output

end NonlinearOpt
