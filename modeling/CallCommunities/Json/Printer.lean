import CallCommunities.Json.Value
import CallCommunities.Text.Quoted

/-!
# Json/Printer — writing JSON text

Documents are written over several lines, two spaces for each level, or compactly on one line.  Empty
arrays and objects are closed at once in both forms.
-/

namespace CallCommunities.Json

/-- The written form of one character of a string: quotes, backslashes and controls are escaped. -/
def escapedChar (c : Char) : List Char :=
  if c = '"' then ['\\', '"']
  else if c = '\\' then ['\\', '\\']
  else if c.toNat = 8 then ['\\', 'b']
  else if c.toNat = 12 then ['\\', 'f']
  else if c = '\n' then ['\\', 'n']
  else if c = '\r' then ['\\', 'r']
  else if c = '\t' then ['\\', 't']
  else if c.toNat < 0x20 then
    let digits := Text.hexDigits c.toNat
    ['\\', 'u'] ++ List.replicate (4 - digits.length) '0' ++ digits
  else [c]

/-- A string between quotes; one that has no text is written as the replacement character. -/
def printString (text : Option String) : String :=
  String.ofList ('"' :: ((text.getD "\ufffd").toList.flatMap escapedChar ++ ['"']))

/-- Where the parts of an array or object go. -/
inductive Style where
  /-- All on one line, without spaces. -/
  | compact
  /-- Each part on a line of its own, two spaces further in. -/
  | indented

/-- What stands before a part at a depth. -/
def Style.lead : Style → (depth : Nat) → String
  | compact, _ => ""
  | indented, depth => String.ofList ('\n' :: List.replicate (2 * depth) ' ')

/-- What stands between a key and its value. -/
def Style.colon : Style → String
  | compact => ":"
  | indented => ": "

mutual

/-- The text of a value at a depth. -/
def printAt (style : Style) (depth : Nat) : Value → String
  | .null => "null"
  | .bool true => "true"
  | .bool false => "false"
  | .number literal => literal
  | .string text => printString text
  | .array [] => "[]"
  | .array (item :: items) =>
    "[" ++ style.lead (depth + 1) ++ printAt style (depth + 1) item
      ++ printItems style (depth + 1) items ++ style.lead depth ++ "]"
  | .object [] => "\x7b\x7d"
  | .object ((key, value) :: members) =>
    "\x7b" ++ style.lead (depth + 1) ++ printString key ++ style.colon
      ++ printAt style (depth + 1) value
      ++ printMembers style (depth + 1) members ++ style.lead depth ++ "\x7d"

/-- The further items of an array, each after a comma. -/
def printItems (style : Style) (depth : Nat) : List Value → String
  | [] => ""
  | item :: items =>
    "," ++ style.lead depth ++ printAt style depth item ++ printItems style depth items

/-- The further members of an object, each after a comma. -/
def printMembers (style : Style) (depth : Nat) : List (Option String × Value) → String
  | [] => ""
  | (key, value) :: members =>
    "," ++ style.lead depth ++ printString key ++ style.colon ++ printAt style depth value
      ++ printMembers style depth members

end

/-- The text of a document. -/
def print (style : Style) (v : Value) : String := printAt style 0 v

end CallCommunities.Json
