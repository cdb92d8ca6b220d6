import NonlinearOpt.Json.Value
import NonlinearOpt.Text.Decimal

/-!
JSON text as a stream of tokens. Scanning looks at the characters only, not at what a reader expects,
so the stream keeps what a reader needs to name the first fault it meets: a piece of text that is no
token ends the stream, with the fault found by a reader that wants its value and by one that skips it.
-/

namespace NonlinearOpt.Json

structure Numeral where
  negative : Bool
  whole : List Char
  fraction : Option (List Char)
  exponent : Option (Bool × List Char)
  deriving DecidableEq, Repr

namespace Numeral

def natOf (digits : List Char) : Nat :=
  digits.foldl (fun n c => 10 * n + (c.toNat - '0'.toNat)) 0

def decimal (n : Numeral) : Decimal :=
  let fraction := n.fraction.getD []
  let exponent : Int := match n.exponent with
    | none => 0
    | some (true, digits) => -(natOf digits : Int)
    | some (false, digits) => natOf digits
  ⟨n.negative, natOf (n.whole ++ fraction), exponent - fraction.length⟩

def toFloat? (n : Numeral) : Option Float :=
  let x := n.decimal.toFloat
  if x.isFinite then some x else none

def toNat? (n : Numeral) : Option Nat :=
  if n.negative || n.fraction.isSome || n.exponent.isSome then none else some (natOf n.whole)

end Numeral

inductive Token where
  | openBrace
  | closeBrace
  | openBracket
  | closeBracket
  | colon
  | comma
  | null
  | bool (b : Bool)
  | number (n : Numeral)
  /-- A string. Escapes that stand for no character are a fault only if the content is wanted. -/
  | text (content : Except Fault (List Char))

inductive Lead where
  | text
  | number
  | word
  deriving DecidableEq, Repr

inductive Stream where
  | done
  | broken (lead : Lead) (read skip : Fault)
  | next (token : Token) (rest : Stream)

/-- A string after its opening quote: its content, and what follows the closing quote. -/
structure Quoted where
  content : Except Fault (List Char)
  rest : Except Fault (List Char)

namespace Quoted

def fault (f : Fault) : Quoted := ⟨.error f, .error f⟩

def push (c : Char) (q : Quoted) : Quoted := { q with content := q.content.map (c :: ·) }

def spoil (q : Quoted) : Quoted := { q with content := .error .malformed }

def hexDigit? (c : Char) : Option Nat :=
  if c.isDigit then some (c.toNat - '0'.toNat)
  else if 'a' ≤ c ∧ c ≤ 'f' then some (c.toNat - 'a'.toNat + 10)
  else if 'A' ≤ c ∧ c ≤ 'F' then some (c.toNat - 'A'.toNat + 10)
  else none

def hex? (a b c d : Char) : Option Nat := do
  return (((← hexDigit? a) * 16 + (← hexDigit? b)) * 16 + (← hexDigit? c)) * 16 + (← hexDigit? d)

def badHex (cs : List Char) : Quoted :=
  if (String.ofList cs).utf8ByteSize < 4 then fault .truncated else fault .malformed

def escaped? : Char → Option Char
  | '"' => some '"'
  | '\\' => some '\\'
  | '/' => some '/'
  | 'b' => some '\x08'
  | 'f' => some '\x0c'
  | 'n' => some '\n'
  | 'r' => some '\r'
  | 't' => some '\t'
  | _ => none

def isHigh (n : Nat) : Bool := 0xD800 ≤ n && n ≤ 0xDBFF

def isLow (n : Nat) : Bool := 0xDC00 ≤ n && n ≤ 0xDFFF

/-- The fault of a second half of a character that breaks off with the text. -/
def cutOff? : List Char → Option Quoted
  | [] => some (fault .truncated)
  | ['\\'] => some (fault .truncated)
  | '\\' :: 'u' :: cs => some (badHex cs)
  | _ => none

/-- Reads the rest of a string. A pair of escapes for the two halves of a character makes one
character, and a half on its own none. -/
def scan : List Char → Quoted
  | [] => fault .truncated
  | '"' :: cs => ⟨.ok [], .ok cs⟩
  | '\\' :: 'u' :: a :: b :: c :: d :: '\\' :: 'u' :: a' :: b' :: c' :: d' :: cs =>
    match hex? a b c d with
    | none => fault .malformed
    | some n =>
      if isHigh n then
        match hex? a' b' c' d' with
        | none => badHex (a' :: b' :: c' :: d' :: cs)
        | some n' =>
          if isLow n' then
            (scan cs).push (Char.ofNat (0x10000 + (n - 0xD800) * 0x400 + (n' - 0xDC00)))
          else (scan ('\\' :: 'u' :: a' :: b' :: c' :: d' :: cs)).spoil
      else if isLow n then (scan ('\\' :: 'u' :: a' :: b' :: c' :: d' :: cs)).spoil
      else (scan ('\\' :: 'u' :: a' :: b' :: c' :: d' :: cs)).push (Char.ofNat n)
  | '\\' :: 'u' :: a :: b :: c :: d :: cs =>
    match hex? a b c d with
    | none => badHex (a :: b :: c :: d :: cs)
    | some n =>
      if isHigh n then (cutOff? cs).getD (scan cs).spoil
      else if isLow n then (scan cs).spoil
      else (scan cs).push (Char.ofNat n)
  | '\\' :: 'u' :: cs => badHex cs
  | '\\' :: c :: cs =>
    match escaped? c with
    | some c => (scan cs).push c
    | none => fault .malformed
  | '\\' :: [] => fault .truncated
  | c :: cs => if c.toNat < 32 then fault .malformed else (scan cs).push c
termination_by cs => cs.length

end Quoted

inductive Scanned where
  | token (t : Token) (rest : List Char)
  | broken (lead : Lead) (read skip : Fault)

namespace Scanned

def exponent (negative : Bool) (whole : List Char) (fraction : Option (List Char)) :
    List Char → Scanned
  | [] => .token (.number ⟨negative, whole, fraction, none⟩) []
  | c :: cs =>
    if c = 'e' ∨ c = 'E' then
      let (down, cs) := match cs with
        | '-' :: cs => (true, cs)
        | '+' :: cs => (false, cs)
        | cs => (false, cs)
      let digits := cs.takeWhile Char.isDigit
      let rest := cs.dropWhile Char.isDigit
      if digits.isEmpty then
        .broken .number (if rest.isEmpty then .truncated else .malformed) .malformed
      else .token (.number ⟨negative, whole, fraction, some (down, digits)⟩) rest
    else .token (.number ⟨negative, whole, fraction, none⟩) (c :: cs)

/-- A number after its sign. Whole parts have no leading zeros; a point and an exponent mark are
followed by digits. -/
def number (negative : Bool) (cs : List Char) : Scanned :=
  let whole := cs.takeWhile Char.isDigit
  let rest := cs.dropWhile Char.isDigit
  match whole with
  | [] => .broken .number (if rest.isEmpty then .truncated else .malformed) .malformed
  | '0' :: _ :: _ => .broken .number .malformed .malformed
  | _ =>
    match rest with
    | '.' :: cs =>
      let fraction := cs.takeWhile Char.isDigit
      let rest := cs.dropWhile Char.isDigit
      if fraction.isEmpty then
        .broken .number (if rest.isEmpty then .truncated else .malformed) .malformed
      else exponent negative whole (some fraction) rest
    | rest => exponent negative whole none rest

def word (t : Token) : List Char → List Char → Scanned
  | [], cs => .token t cs
  | _ :: _, [] => .broken .word .truncated .truncated
  | w :: ws, c :: cs => if w = c then word t ws cs else .broken .word .malformed .malformed

def first (c : Char) (cs : List Char) : Scanned :=
  match c with
  | '\x7b' => .token .openBrace cs
  | '\x7d' => .token .closeBrace cs
  | '[' => .token .openBracket cs
  | ']' => .token .closeBracket cs
  | ':' => .token .colon cs
  | ',' => .token .comma cs
  | 'n' => word .null "ull".toList cs
  | 't' => word (.bool true) "rue".toList cs
  | 'f' => word (.bool false) "alse".toList cs
  | '-' => number true cs
  | '"' =>
    let q := Quoted.scan cs
    match q.rest with
    | .ok rest => .token (.text q.content) rest
    | .error skip =>
      .broken .text (match q.content with | .error read => read | .ok _ => skip) skip
  | c => if c.isDigit then number false (c :: cs) else .broken .word .malformed .malformed

end Scanned

def isBlank (c : Char) : Bool := c == ' ' || c == '\n' || c == '\t' || c == '\r'

namespace Stream

/-- The tokens of a text. Every step uses up a character, so the length of the text is fuel enough. -/
def ofChars (fuel : Nat) (cs : List Char) : Stream :=
  match fuel, cs.dropWhile isBlank with
  | _, [] => .done
  | 0, _ => .done
  | fuel + 1, c :: cs =>
    match Scanned.first c cs with
    | .token t rest => .next t (ofChars fuel rest)
    | .broken lead read skip => .broken lead read skip

def ofString (s : String) : Stream := ofChars s.length s.toList

end Stream

end NonlinearOpt.Json
