import CallCommunities.Toml.Value

/-!
# Toml/Scalar — numbers, truth values, dates and times

A scalar is a run of letters, digits and a few signs.  Digits may be grouped by single underscores; a
decimal number has no leading zeros.  Dates exist in the calendar, and seconds may be left out of a time.
-/

namespace CallCommunities.Toml

/-- The digits of a run, each two apart by at most one underscore. -/
def digitGroups (isDigit : Char → Bool) : List Char → Option (List Char)
  | [] => none
  | [c] => if isDigit c then some [c] else none
  | c :: '_' :: rest => if isDigit c then (digitGroups isDigit rest).map (c :: ·) else none
  | c :: rest => if isDigit c then (digitGroups isDigit rest).map (c :: ·) else none

/-- The value of a digit of base 16. -/
def digitValue (c : Char) : Nat :=
  if c.isDigit then c.toNat - '0'.toNat else c.toLower.toNat - 'a'.toNat + 10

/-- The number that digits of a base write. -/
def numberOf (base : Nat) (digits : List Char) : Nat :=
  digits.foldl (fun n c => base * n + digitValue c) 0

/-- Whether a character is a digit of the base. -/
def isDigitOf (base : Nat) (c : Char) : Bool :=
  (c.isDigit || 'a'.toNat ≤ c.toLower.toNat && c.toLower.toNat ≤ 'f'.toNat) && digitValue c < base

/-- The number of grouped digits of a base. -/
def grouped? (base : Nat) (cs : List Char) : Option Nat :=
  (digitGroups (isDigitOf base) cs).map (numberOf base)

/-- The digits of a decimal number without leading zeros. -/
def decimalDigits? (cs : List Char) : Option (List Char) :=
  (digitGroups Char.isDigit cs).filter fun digits => digits.length = 1 || digits.head? != some '0'

/-- A sign, if there is one, and the rest. -/
def splitSign : List Char → Bool × List Char
  | '-' :: rest => (true, rest)
  | '+' :: rest => (false, rest)
  | cs => (false, cs)

/-- A whole number: decimal with an optional sign, or of base 16, 8 or 2 without. -/
def integer? (cs : List Char) : Option Int :=
  match cs with
  | '0' :: 'x' :: rest => (grouped? 16 rest).map Int.ofNat
  | '0' :: 'o' :: rest => (grouped? 8 rest).map Int.ofNat
  | '0' :: 'b' :: rest => (grouped? 2 rest).map Int.ofNat
  | cs =>
    let (negative, rest) := splitSign cs
    (decimalDigits? rest).map fun digits =>
      if negative then -(numberOf 10 digits : Int) else numberOf 10 digits

/-- Whether a character begins a decimal exponent. -/
def isExponentMark (c : Char) : Bool := c = 'e' || c = 'E'

/-- The decimal exponent after its mark. -/
def exponent? (cs : List Char) : Option Int :=
  let (negative, rest) := splitSign cs
  (digitGroups Char.isDigit rest).map fun digits =>
    if negative then -(numberOf 10 digits : Int) else numberOf 10 digits

/-- A float: digits with a fraction, an exponent or both. -/
def float? (cs : List Char) : Option Value := do
  let (_, cs) := splitSign cs
  let (significand, exponentPart) := cs.span fun c => !isExponentMark c
  let (whole, fractionPart) := significand.span fun c => c != '.'
  let wholeDigits ← decimalDigits? whole
  let fractionDigits ← match fractionPart with
    | [] => some []
    | _ :: fraction => digitGroups Char.isDigit fraction
  let exponent ← match exponentPart with
    | [] => some 0
    | _ :: exponent => exponent? exponent
  if fractionPart.isEmpty && exponentPart.isEmpty then none
  else some (.float (numberOf 10 (wholeDigits ++ fractionDigits)) (exponent - fractionDigits.length))

/-- An infinity or not a number, with an optional sign. -/
def nonFinite? (cs : List Char) : Option Value :=
  let word := (splitSign cs).2
  if word = "inf".toList || word = "nan".toList then some .nonFinite else none

/-! ## Dates and times -/

/-- Takes a number of exactly `width` digits off the front. -/
def takeNumber (width : Nat) (cs : List Char) : Option (Nat × List Char) :=
  let digits := cs.take width
  if digits.length = width && digits.all Char.isDigit then some (numberOf 10 digits, cs.drop width)
  else none

/-- Takes a given character off the front. -/
def takeChar (c : Char) : List Char → Option (List Char)
  | d :: rest => if d = c then some rest else none
  | [] => none

/-- The days of a month. -/
def daysIn (year month : Nat) : Nat :=
  if month = 2 then
    if year % 4 = 0 ∧ (year % 100 ≠ 0 ∨ year % 400 = 0) then 29 else 28
  else if month = 4 ∨ month = 6 ∨ month = 9 ∨ month = 11 then 30
  else 31

/-- Takes a date off the front. -/
def takeDate (cs : List Char) : Option (List Char) := do
  let (year, cs) ← takeNumber 4 cs
  let cs ← takeChar '-' cs
  let (month, cs) ← takeNumber 2 cs
  let cs ← takeChar '-' cs
  let (day, cs) ← takeNumber 2 cs
  if 1 ≤ month ∧ month ≤ 12 ∧ 1 ≤ day ∧ day ≤ daysIn year month then some cs else none

/-- Takes the fraction of a second off the front, if there is one. -/
def takeFraction : List Char → Option (List Char)
  | '.' :: rest =>
    match rest with
    | c :: _ => if c.isDigit then some (rest.dropWhile Char.isDigit) else none
    | [] => none
  | cs => some cs

/-- Takes the seconds off the front, if there are any. -/
def takeSeconds : List Char → Option (List Char)
  | ':' :: rest => do
    let (second, rest) ← takeNumber 2 rest
    if second ≤ 60 then takeFraction rest else none
  | cs => some cs

/-- Takes hours and minutes off the front. -/
def takeHoursMinutes (cs : List Char) : Option (List Char) := do
  let (hour, cs) ← takeNumber 2 cs
  let cs ← takeChar ':' cs
  let (minute, cs) ← takeNumber 2 cs
  if hour ≤ 23 ∧ minute ≤ 59 then some cs else none

/-- Takes a time off the front. -/
def takeTime (cs : List Char) : Option (List Char) := takeHoursMinutes cs >>= takeSeconds

/-- Takes an offset from universal time off the front, if there is one. -/
def takeOffset : List Char → Option (List Char)
  | 'Z' :: rest => some rest
  | 'z' :: rest => some rest
  | '+' :: rest => takeHoursMinutes rest
  | '-' :: rest => takeHoursMinutes rest
  | cs => some cs

/-- Whether a run is exactly a date. -/
def isDate (cs : List Char) : Bool := takeDate cs = some []

/-- Whether a run is a date, a time, or both, the two joined by a letter `T` of either case. -/
def isMoment (cs : List Char) : Bool :=
  isDate cs || takeTime cs = some [] ||
    match takeDate cs with
    | some (c :: rest) => (c = 'T' || c = 't') && (takeTime rest >>= takeOffset) = some []
    | _ => false

/-! ## Scalars -/

/-- Whether a character may stand in a scalar. -/
def isScalarChar (c : Char) : Bool :=
  c.isAlphanum || c = '_' || c = '+' || c = '-' || c = '.' || c = ':'

/-- The value of a run of scalar characters. -/
def scalar? (cs : List Char) : Option Value :=
  if cs = "true".toList then some (.boolean true)
  else if cs = "false".toList then some (.boolean false)
  else if isMoment cs then some .moment
  else ((integer? cs).map Value.integer) <|> float? cs <|> nonFinite? cs

/-- Takes a scalar off the front.  A space may stand between a date and its time. -/
def readScalar (cs : List Char) : Option (Value × List Char) :=
  let run := cs.takeWhile isScalarChar
  let rest := cs.dropWhile isScalarChar
  match rest with
  | ' ' :: c :: _ =>
    if isDate run && c.isDigit then
      let rest := rest.drop 1
      (scalar? (run ++ 'T' :: rest.takeWhile isScalarChar)).map
        fun v => (v, rest.dropWhile isScalarChar)
    else (scalar? run).map fun v => (v, rest)
  | _ => (scalar? run).map fun v => (v, rest)

end CallCommunities.Toml
