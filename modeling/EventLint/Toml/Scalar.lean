import EventLint.Toml.Lexeme

/-!
# Bare values of TOML

Booleans, numbers, dates and times. Of numbers and dates only their form matters here, and that a
number is not too large: integers have 128 bits, and a float must be finite.
-/

namespace EventLint.Toml

namespace Scalar

/-! ## Numbers -/

def isDecimal (c : Char) : Bool :=
  '0' ≤ c && c ≤ '9'

def isHex (c : Char) : Bool :=
  (Lexeme.hexDigit? c).isSome

def isOctal (c : Char) : Bool :=
  '0' ≤ c && c ≤ '7'

def isBinary (c : Char) : Bool :=
  c = '0' || c = '1'

/-- Digits, with single underscores between them. -/
def isDigits (p : Char → Bool) (cs : Text) : Bool :=
  (cs.splitOn '_').all fun part => part ≠ [] && part.all p

/-- Digits that do not start with a zero, unless that is all. -/
def isWhole (cs : Text) : Bool :=
  isDigits isDecimal cs && (cs = ['0'] || cs.head? ≠ some '0')

/-- The number that digits with underscores give. -/
def valueOf (base : Nat) (cs : Text) : Nat :=
  cs.foldl (fun n c => match Lexeme.hexDigit? c with
    | some d => base * n + d
    | none => n) 0

/-- A text without its sign, and if that is a minus. -/
def unsigned : Text → Bool × Text
  | '-' :: cs => (true, cs)
  | '+' :: cs => (false, cs)
  | cs => (false, cs)

/-- No integer reaches this size. Negative ones go down to half of it. -/
def integerLimit : Nat :=
  Nat.pow 2 128

def isInteger (cs : Text) : Bool :=
  match cs with
  | '0' :: 'x' :: ds => isDigits isHex ds && valueOf 16 ds < integerLimit
  | '0' :: 'o' :: ds => isDigits isOctal ds && valueOf 8 ds < integerLimit
  | '0' :: 'b' :: ds => isDigits isBinary ds && valueOf 2 ds < integerLimit
  | _ =>
    let (negative, ds) := unsigned cs
    isWhole ds &&
      if negative then 2 * valueOf 10 ds ≤ integerLimit else valueOf 10 ds < integerLimit

/-- What is too large for a float: the least number that is nearer to 2^1024 than to the largest
float. -/
def floatLimit : Nat :=
  Nat.pow 2 1024 - Nat.pow 2 970

/-- A number with these digits and this exponent of ten stays below the limit. -/
def isFinite (digits : Nat) (exponent : Int) : Bool :=
  let places : Int := (Nat.toDigits 10 digits).length
  if digits = 0 ∨ places + exponent ≤ 308 then true
  else if places + exponent > 310 then false
  else if exponent ≥ 0 then digits * Nat.pow 10 exponent.toNat < floatLimit
  else digits < floatLimit * Nat.pow 10 (-exponent).toNat

def exponent? (cs : Text) : Option Int :=
  let (negative, ds) := unsigned cs
  if isDigits isDecimal ds then
    some (if negative then -(valueOf 10 ds : Int) else valueOf 10 ds)
  else none

def isExponentMark (c : Char) : Bool :=
  c = 'e' || c = 'E'

/-- A number with a fraction, an exponent or both. -/
def isFloat (cs : Text) : Bool :=
  let body := (unsigned cs).2
  if body = "inf".toList ∨ body = "nan".toList then true
  else
    let mantissa := body.takeWhile fun c => !isExponentMark c
    let scaled := body.dropWhile fun c => !isExponentMark c
    let exponent := match scaled with
      | [] => some 0
      | _ :: ds => exponent? ds
    match mantissa.splitOn '.', exponent with
    | [whole], some e => scaled ≠ [] && isWhole whole && isFinite (valueOf 10 whole) e
    | [whole, part], some e =>
      isWhole whole && isDigits isDecimal part &&
        isFinite (valueOf 10 (whole ++ part)) (e - (part.filter (· ≠ '_')).length)
    | _, _ => false

/-! ## Dates and times -/

def digits? (width : Nat) (cs : Text) : Option Nat :=
  if cs.length = width ∧ cs.all isDecimal then some (valueOf 10 cs) else none

def isLeap (year : Nat) : Bool :=
  year % 4 = 0 && (year % 100 ≠ 0 || year % 400 = 0)

def daysIn (year month : Nat) : Nat :=
  if month = 2 then if isLeap year then 29 else 28
  else if month ∈ [4, 6, 9, 11] then 30
  else 31

def isDate (cs : Text) : Bool :=
  match cs.splitOn '-' with
  | [y, m, d] =>
    match digits? 4 y, digits? 2 m, digits? 2 d with
    | some year, some month, some day =>
      1 ≤ month && month ≤ 12 && 1 ≤ day && day ≤ daysIn year month
    | _, _, _ => false
  | _ => false

def isPair (limit : Nat) (cs : Text) : Bool :=
  match digits? 2 cs with
  | some n => n ≤ limit
  | none => false

/-- Seconds, with a fraction or without. A leap second is one. -/
def isSeconds (cs : Text) : Bool :=
  match cs.splitOn '.' with
  | [s] => isPair 60 s
  | [s, part] => isPair 60 s && part ≠ [] && part.all isDecimal
  | _ => false

def isTime (cs : Text) : Bool :=
  match cs.splitOn ':' with
  | [h, m] => isPair 23 h && isPair 59 m
  | [h, m, s] => isPair 23 h && isPair 59 m && isSeconds s
  | _ => false

def isOffset (cs : Text) : Bool :=
  match cs with
  | [c] => c = 'Z' || c = 'z'
  | c :: rest =>
    (c = '+' || c = '-') &&
      match rest.splitOn ':' with
      | [h, m] => isPair 23 h && isPair 59 m
      | _ => false
  | [] => false

def isOffsetMark (c : Char) : Bool :=
  c ∈ ['Z', 'z', '+', '-']

/-- A time with an offset or without. -/
def isZonedTime (cs : Text) : Bool :=
  let time := cs.takeWhile fun c => !isOffsetMark c
  let offset := cs.drop time.length
  isTime time && (offset = [] || isOffset offset)

/-- A date, a time, or a date and a time with a mark between them. -/
def isMoment (cs : Text) : Bool :=
  isDate cs || isTime cs ||
    (isDate (cs.take 10) &&
      match cs.drop 10 with
      | c :: time => (c = 'T' || c = 't' || c = ' ') && isZonedTime time
      | [] => false)

end Scalar

end EventLint.Toml
