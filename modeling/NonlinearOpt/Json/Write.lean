import NonlinearOpt.Json.Token

namespace NonlinearOpt.Json

namespace Numeral

def zeros (n : Nat) : List Char := List.replicate n '0'

def ofNat (n : Nat) : Numeral := ⟨false, Nat.toDigits 10 n, none, none⟩

/-- The written form of a decimal that is not an integer by its type: it has a fraction, or an
exponent where the leading digit lies below `10 ^ -5` or above `10 ^ 15`. -/
def ofDecimal (d : Decimal) : Numeral :=
  let s := Nat.toDigits 10 d.digits
  let point : Int := s.length + d.exponent
  if d.digits = 0 then ⟨d.negative, ['0'], some ['0'], none⟩
  else if 0 ≤ d.exponent ∧ point ≤ 16 then
    ⟨d.negative, s ++ zeros d.exponent.toNat, some ['0'], none⟩
  else if 0 < point ∧ point ≤ 16 then
    ⟨d.negative, s.take point.toNat, some (s.drop point.toNat), none⟩
  else if -5 < point ∧ point ≤ 0 then
    ⟨d.negative, ['0'], some (zeros (-point).toNat ++ s), none⟩
  else
    let e := point - 1
    ⟨d.negative, s.take 1, if s.length ≤ 1 then none else some (s.drop 1),
      some (decide (e < 0), Nat.toDigits 10 e.natAbs)⟩

def written (n : Numeral) : List Char :=
  let fraction := match n.fraction with
    | some digits => '.' :: digits
    | none => []
  let exponent := match n.exponent with
    | some (true, digits) => 'e' :: '-' :: digits
    | some (false, digits) => 'e' :: digits
    | none => []
  (if n.negative then ['-'] else []) ++ n.whole ++ fraction ++ exponent

end Numeral

namespace Quoted

def written : Char → List Char
  | '"' => ['\\', '"']
  | '\\' => ['\\', '\\']
  | '\x08' => ['\\', 'b']
  | '\x0c' => ['\\', 'f']
  | '\n' => ['\\', 'n']
  | '\r' => ['\\', 'r']
  | '\t' => ['\\', 't']
  | c =>
    if c.toNat < 32 then
      ['\\', 'u', '0', '0', Nat.digitChar (c.toNat / 16), Nat.digitChar (c.toNat % 16)]
    else [c]

end Quoted

namespace Token

def written : Token → List Char
  | openBrace => ['\x7b']
  | closeBrace => ['\x7d']
  | openBracket => ['[']
  | closeBracket => [']']
  | colon => [':']
  | comma => [',']
  | null => "null".toList
  | bool true => "true".toList
  | bool false => "false".toList
  | number n => n.written
  | text (.ok content) => '"' :: (content.flatMap Quoted.written ++ ['"'])
  | text (.error _) => []

end Token

namespace Value

mutual

/-- The tokens of a value. Floats that are not finite are written as `null`. -/
def tokens : Value → List Token
  | null => [.null]
  | number x => if x.isFinite then [.number (.ofDecimal (.shortest x))] else [.null]
  | natural n => [.number (.ofNat n)]
  | flag b => [.bool b]
  | text s => [.text (.ok s.toList)]
  | list items => .openBracket :: (itemTokens items ++ [.closeBracket])
  | record fields => .openBrace :: (fieldTokens fields ++ [.closeBrace])

def itemTokens : List Value → List Token
  | [] => []
  | [v] => v.tokens
  | v :: w :: vs => v.tokens ++ .comma :: itemTokens (w :: vs)

def fieldTokens : List (String × Value) → List Token
  | [] => []
  | [(name, v)] => .text (.ok name.toList) :: .colon :: v.tokens
  | (name, v) :: f :: fs =>
    .text (.ok name.toList) :: .colon :: (v.tokens ++ .comma :: fieldTokens (f :: fs))

end

def write (v : Value) : String := String.ofList (v.tokens.flatMap Token.written)

end Value

end NonlinearOpt.Json
