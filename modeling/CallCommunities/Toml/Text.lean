import CallCommunities.Toml.Scalar

/-!
# Toml/Text — space, comments, strings and keys

Control characters other than the tab stand nowhere but in line ends, and a carriage return only before
a line feed.  Every reader takes what it reads off the front of the characters and gives back the rest;
it gives nothing where the grammar is violated.
-/

namespace CallCommunities.Toml

/-- Whether a character may stand in comments and, unescaped, in strings. -/
def isPlain (c : Char) : Bool := c = '\t' || (0x20 ≤ c.toNat && c.toNat ≠ 0x7F)

/-- A space or a tab. -/
def isBlank (c : Char) : Bool := c = ' ' || c = '\t'

/-- Passes over spaces and tabs. -/
def skipBlanks (cs : List Char) : List Char := cs.dropWhile isBlank

/-- Takes a line end off the front. -/
def readNewline : List Char → Option (List Char)
  | '\n' :: rest => some rest
  | '\r' :: '\n' :: rest => some rest
  | _ => none

/-- Passes over the rest of a comment up to its line end. -/
def skipCommentBody : List Char → Option (List Char)
  | [] => some []
  | '\n' :: rest => some ('\n' :: rest)
  | '\r' :: '\n' :: rest => some ('\n' :: rest)
  | c :: rest => if isPlain c then skipCommentBody rest else none

/-- Passes over blanks and a comment. -/
def skipComment (cs : List Char) : Option (List Char) :=
  match skipBlanks cs with
  | '#' :: rest => skipCommentBody rest
  | cs => some cs

/-- Passes over what may end a line: blanks, a comment, and the line end or the end of the text. -/
def endLine (cs : List Char) : Option (List Char) := do
  match ← skipComment cs with
  | [] => some []
  | cs => readNewline cs

/-- Passes over blanks, comments and line ends. -/
def skipLines : (fuel : Nat) → List Char → Option (List Char)
  | 0, cs => some cs
  | fuel + 1, cs => do
    let cs ← skipComment cs
    match readNewline cs with
    | some rest => skipLines fuel rest
    | none => some cs

/-! ## Strings -/

/-- The character of a short escape. -/
def shortEscape? (c : Char) : Option Char :=
  if c = '"' || c = '\\' then some c
  else if c = 'b' then some (.ofNat 8)
  else if c = 't' then some '\t'
  else if c = 'n' then some '\n'
  else if c = 'f' then some (.ofNat 12)
  else if c = 'r' then some '\r'
  else if c = 'e' then some (.ofNat 27)
  else none

/-- The number of hexadecimal digits after the letter of an escaped code point. -/
def escapeWidth? (c : Char) : Option Nat :=
  if c = 'x' then some 2 else if c = 'u' then some 4 else if c = 'U' then some 8 else none

/-- Takes an escape off the front, after its backslash. -/
def readEscape : List Char → Option (Char × List Char)
  | [] => none
  | c :: rest =>
    match escapeWidth? c with
    | some width =>
      let digits := rest.take width
      let code := numberOf 16 digits
      if digits.length = width && digits.all (isDigitOf 16) && code.isValidChar then
        some (.ofNat code, rest.drop width)
      else none
    | none => (shortEscape? c).map fun escaped => (escaped, rest)

/-- Takes the rest of a string with escapes on one line, after its opening quote. -/
def readBasic : (fuel : Nat) → List Char → Option (List Char × List Char)
  | 0, _ => none
  | _, [] => none
  | _, '"' :: rest => some ([], rest)
  | fuel + 1, '\\' :: rest => do
    let (c, rest) ← readEscape rest
    let (text, rest) ← readBasic fuel rest
    return (c :: text, rest)
  | fuel + 1, c :: rest =>
    if isPlain c then (readBasic fuel rest).map fun (text, rest) => (c :: text, rest) else none

/-- Takes the rest of a string without escapes on one line, after its opening quote. -/
def readLiteral : List Char → Option (List Char × List Char)
  | [] => none
  | '\'' :: rest => some ([], rest)
  | c :: rest =>
    if isPlain c then (readLiteral rest).map fun (text, rest) => (c :: text, rest) else none

/-- Passes over blanks and line ends after a backslash, of which the first line end has to come before
anything else. -/
def skipFolded (fuel : Nat) (cs : List Char) : Option (List Char) := do
  let rest ← readNewline (skipBlanks cs)
  go fuel rest
where
  /-- Passes over further blanks and line ends. -/
  go : Nat → List Char → Option (List Char)
    | 0, cs => some cs
    | fuel + 1, cs =>
      let cs := skipBlanks cs
      match readNewline cs with
      | some rest => go fuel rest
      | none => some cs

/-- Takes the rest of a string with escapes on several lines.  Up to two quotes may stand before the
three that close it. -/
def readMultiBasic : (fuel : Nat) → List Char → Option (List Char × List Char)
  | 0, _ => none
  | _, [] => none
  | _, '"' :: '"' :: '"' :: '"' :: '"' :: rest => some (['"', '"'], rest)
  | _, '"' :: '"' :: '"' :: '"' :: rest => some (['"'], rest)
  | _, '"' :: '"' :: '"' :: rest => some ([], rest)
  | fuel + 1, '\\' :: rest =>
    match skipFolded fuel rest with
    | some rest => readMultiBasic fuel rest
    | none => do
      let (c, rest) ← readEscape rest
      let (text, rest) ← readMultiBasic fuel rest
      return (c :: text, rest)
  | fuel + 1, '\r' :: '\n' :: rest =>
    (readMultiBasic fuel rest).map fun (text, rest) => ('\n' :: text, rest)
  | fuel + 1, c :: rest =>
    if isPlain c || c = '\n' then
      (readMultiBasic fuel rest).map fun (text, rest) => (c :: text, rest)
    else none

/-- Takes the rest of a string without escapes on several lines.  Up to two quotes may stand before the
three that close it. -/
def readMultiLiteral : List Char → Option (List Char × List Char)
  | [] => none
  | '\'' :: '\'' :: '\'' :: '\'' :: '\'' :: rest => some (['\'', '\''], rest)
  | '\'' :: '\'' :: '\'' :: '\'' :: rest => some (['\''], rest)
  | '\'' :: '\'' :: '\'' :: rest => some ([], rest)
  | '\r' :: '\n' :: rest => (readMultiLiteral rest).map fun (text, rest) => ('\n' :: text, rest)
  | c :: rest =>
    if isPlain c || c = '\n' then
      (readMultiLiteral rest).map fun (text, rest) => (c :: text, rest)
    else none

/-- Passes over a line end right after three opening quotes. -/
def skipFirstNewline (cs : List Char) : List Char := (readNewline cs).getD cs

/-- Takes a string of any of the four kinds off the front, if one begins here. -/
def readString (fuel : Nat) : List Char → Option (List Char × List Char)
  | '"' :: '"' :: '"' :: rest => readMultiBasic fuel (skipFirstNewline rest)
  | '"' :: rest => readBasic fuel rest
  | '\'' :: '\'' :: '\'' :: rest => readMultiLiteral (skipFirstNewline rest)
  | '\'' :: rest => readLiteral rest
  | _ => none

/-! ## Keys -/

/-- Whether a character may stand in a key without quotes. -/
def isBareKeyChar (c : Char) : Bool := c.isAlphanum || c = '_' || c = '-'

/-- Takes one part of a key off the front. -/
def readKeyPart (fuel : Nat) (cs : List Char) : Option (String × List Char) :=
  match cs with
  | '"' :: rest => (readBasic fuel rest).map fun (text, rest) => (String.ofList text, rest)
  | '\'' :: rest => (readLiteral rest).map fun (text, rest) => (String.ofList text, rest)
  | cs =>
    match cs.takeWhile isBareKeyChar with
    | [] => none
    | part => some (String.ofList part, cs.dropWhile isBareKeyChar)

/-- Takes the parts of a key off the front, with dots between them and blanks around the dots. -/
def readKeyParts : (fuel : Nat) → List Char → Option (List String × List Char)
  | 0, _ => none
  | fuel + 1, cs => do
    let (part, rest) ← readKeyPart fuel (skipBlanks cs)
    match skipBlanks rest with
    | '.' :: rest => (readKeyParts fuel rest).map fun (parts, rest) => (part :: parts, rest)
    | rest => some ([part], rest)

/-- The greatest number of parts of a key. -/
def maxKeyParts : Nat := 80

/-- Takes a key off the front. -/
def readKey (fuel : Nat) (cs : List Char) : Option (List String × List Char) :=
  (readKeyParts fuel cs).filter fun key => key.1.length ≤ maxKeyParts

end CallCommunities.Toml
