/-!
The data that records are written as, and its shapes. How data is written as text, and read from it,
is left to a `Format`.
-/

namespace NonlinearOpt.Json

inductive Shape where
  | number
  /-- A whole number up to a limit. -/
  | natural (limit : Nat)
  | flag
  | text
  | list (item : Shape)
  | pair (first second : Shape)
  | option (some : Shape)
  /-- One of the given names. -/
  | choice (names : List String)
  /-- Named fields in a fixed order. If the record is open, fields may be missing. -/
  | record (fields : List (String × Shape)) (isOpen : Bool)

namespace Shape

def isOption : Shape → Bool
  | option _ => true
  | _ => false

end Shape

inductive Value where
  | null
  | number (x : Float)
  | natural (n : Nat)
  | flag (b : Bool)
  | text (s : String)
  | list (items : List Value)
  /-- The fields that are there. -/
  | record (fields : List (String × Value))
  deriving Inhabited

inductive Fault where
  /-- The text is no JSON, or holds a number or a character that cannot be represented. -/
  | malformed
  /-- The text ends too early. -/
  | truncated
  /-- The text is fine so far but does not fit what is read. -/
  | mismatch
  deriving DecidableEq, Repr

class Format where
  write : Value → String
  parse : Shape → String → Except Fault Value

end NonlinearOpt.Json
