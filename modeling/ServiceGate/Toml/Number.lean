/-
# TOML numbers, dates and times

Nothing in a configuration is a number or a date, but a document may hold some under keys that do
not matter here, and they have to be well formed.  Each reader answers with what follows the value.
Underscores may stand between two digits of a number.
-/
import ServiceGate.CharClass.Basic
import ServiceGate.Json.Quoted

namespace ServiceGate.Toml

open CharClass

/-! ## Numbers -/

/-- A digit in base two, eight, ten or sixteen. -/
def isDigitIn (base : Nat) (c : Char) : Bool := (Json.hexValue? c).any (· < base)

/-- The digits behind a first one, less the underscores between them, and the rest. -/
def moreDigits (base : Nat) : Text → Text × Text
  | [] => ([], [])
  | '_' :: d :: rest =>
    if isDigitIn base d then
      let (ds, rest) := moreDigits base rest
      (d :: ds, rest)
    else ([], '_' :: d :: rest)
  | d :: rest =>
    if isDigitIn base d then
      let (ds, rest) := moreDigits base rest
      (d :: ds, rest)
    else ([], d :: rest)

/-- The digits that a text starts with, zeros in front included, and the rest. -/
def digits? (base : Nat) : Text → Option (Text × Text)
  | [] => none
  | d :: rest =>
    if isDigitIn base d then
      let (ds, rest) := moreDigits base rest
      some (d :: ds, rest)
    else none

def valueIn (base : Nat) (ds : Text) : Nat :=
  ds.foldl (fun n d => base * n + (Json.hexValue? d).getD 0) 0

/-- Whether a text starts with a minus, and the text behind its sign. -/
def sign : Text → Bool × Text
  | '+' :: rest => (false, rest)
  | '-' :: rest => (true, rest)
  | t => (false, t)

/-- The digits of a decimal number without zeros in front, and the rest. -/
def wholePart? : Text → Option (Text × Text)
  | '0' :: rest => some (['0'], rest)
  | t => digits? 10 t

/-- The whole numbers from zero on that 64 bits with a sign can hold lie below it. -/
def integerLimit : Nat := Int64.size / 2

/-- What follows a whole number of at most 64 bits with a sign. -/
def behindInteger? (t : Text) : Option Text := do
  let (negative, body) := sign t
  let (ds, rest) ← wholePart? body
  if valueIn 10 ds < integerLimit + (if negative then 1 else 0) then some rest else none

/-- What follows a whole number written in a base that is named in front of it. -/
def behindBased? : Text → Option Text
  | '0' :: b :: rest => do
    let base ← if b = 'x' then some 16 else if b = 'o' then some 8 else if b = 'b' then some 2
      else none
    let (ds, rest) ← digits? base rest
    if valueIn base ds < integerLimit then some rest else none
  | _ => none

/-- The digits of the fraction that a text starts with, if any, and the rest. -/
def fraction? : Text → Option (Text × Text)
  | '.' :: rest => digits? 10 rest
  | t => some ([], t)

/-- The exponent that a text starts with, if any, and the rest. -/
def exponent? : Text → Option (Bool × Text × Text)
  | c :: rest =>
    if c = 'e' ∨ c = 'E' then
      let (negative, body) := sign rest
      (digits? 10 body).map fun (ds, rest) => (negative, ds, rest)
    else some (false, [], c :: rest)
  | [] => some (false, [], [])

/-- The least number that is read as infinite. -/
def overflow : Nat := Nat.pow 2 1024 - Nat.pow 2 970

/-- Whether a decimal number is too large for a double. -/
def isInfinite (whole fraction : Text) (negativeExponent : Bool) (exponent : Text) : Bool :=
  let m := valueIn 10 (whole ++ fraction)
  let e := valueIn 10 exponent
  let places := whole.length + fraction.length
  if m = 0 then false
  else if negativeExponent then overflow * Nat.pow 10 (fraction.length + min e places) ≤ m
  else if 400 + places < e then true
  else overflow * Nat.pow 10 fraction.length ≤ m * Nat.pow 10 e

/-- What follows a number with a fraction or an exponent, unless it is infinite and positive. -/
def behindFloat? (t : Text) : Option Text := do
  let (negative, body) := sign t
  let (whole, afterWhole) ← wholePart? body
  let (fraction, afterFraction) ← fraction? afterWhole
  let (negativeExponent, exponent, rest) ← exponent? afterFraction
  if fraction.isEmpty && exponent.isEmpty then none
  else if !negative && isInfinite whole fraction negativeExponent exponent then none
  else some rest

/-- What follows the word for an infinite number or for none. -/
def behindSpecial? (t : Text) : Option Text :=
  match (sign t).2 with
  | 'i' :: 'n' :: 'f' :: rest => some rest
  | 'n' :: 'a' :: 'n' :: rest => some rest
  | _ => none

/-! ## Dates and times -/

/-- A number of two digits between bounds, and the rest. -/
def twoDigits? (least most : Nat) : Text → Option (Nat × Text)
  | a :: b :: rest =>
    if isAsciiDigit a && isAsciiDigit b then
      let n := valueIn 10 [a, b]
      if least ≤ n && n ≤ most then some (n, rest) else none
    else none
  | _ => none

def behind? (c : Char) : Text → Option Text
  | [] => none
  | d :: rest => if d = c then some rest else none

/-- Whether a year has a 29th of February. -/
def isLeapYear (year : Nat) : Bool := year % 4 == 0 && (year % 100 != 0 || year % 400 == 0)

def daysOf (year month : Nat) : Nat :=
  if month = 2 then (if isLeapYear year then 29 else 28)
  else if month = 4 ∨ month = 6 ∨ month = 9 ∨ month = 11 then 30
  else 31

def behindDate? (t : Text) : Option Text := do
  let (century, rest) ← twoDigits? 0 99 t
  let (years, rest) ← twoDigits? 0 99 rest
  let (month, rest) ← behind? '-' rest >>= twoDigits? 1 12
  let (_, rest) ← behind? '-' rest >>= twoDigits? 1 (daysOf (100 * century + years) month)
  return rest

def behindTime? (t : Text) : Option Text := do
  let (_, rest) ← twoDigits? 0 23 t
  let (_, rest) ← behind? ':' rest >>= twoDigits? 0 59
  let (_, rest) ← behind? ':' rest >>= twoDigits? 0 60
  match rest with
  | '.' :: fraction =>
    match fraction.span isAsciiDigit with
    | ([], _) => return rest
    | (_, rest) => return rest
  | _ => return rest

/-- What follows the distance from universal time that a text starts with, if it starts with one. -/
def behindOffset? : Text → Option Text
  | c :: rest =>
    if c = 'Z' ∨ c = 'z' then some rest
    else if c = '+' ∨ c = '-' then do
      let (_, rest) ← twoDigits? 0 23 rest
      let (_, rest) ← behind? ':' rest >>= twoDigits? 0 59
      return rest
    else some (c :: rest)
  | [] => some []

/-- What follows a date with or without a time, or a time alone. -/
def behindDateTime? (t : Text) : Option Text :=
  match behindDate? t with
  | none => behindTime? t
  | some [] => some []
  | some (c :: rest) =>
    if c = 'T' ∨ c = 't' ∨ c = ' ' then
      match behindTime? rest with
      | some rest => behindOffset? rest
      | none => some (c :: rest)
    else some (c :: rest)

/-- What follows the number, date or time that a text starts with. -/
def behindScalar? (t : Text) : Option Text :=
  behindDateTime? t <|> behindFloat? t <|> behindSpecial? t <|> behindBased? t <|>
    behindInteger? t

end ServiceGate.Toml
