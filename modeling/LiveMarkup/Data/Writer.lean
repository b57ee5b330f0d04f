import LiveMarkup.Data.Shortest
import LiveMarkup.Data.Value

/-!
# Writing values

A value is written as compact JSON: no blanks, members in key order, and in strings only the
quotation mark, the backslash and the controls below U+0020 escaped. In a tree a value is shown
as `Value.display` gives it: a string as itself, `null` as nothing, and anything else as JSON.
-/

namespace LiveMarkup

/-- The text of an integer. -/
def intText (n : Int) : List Char :=
  if n < 0 then '-' :: (Nat.repr n.natAbs).toList else (Nat.repr n.natAbs).toList

/-- The text of a number. -/
def Number.toText : Number → List Char
  | .int n => intText n
  | .float x => x.toText

namespace Writer

/-- A hexadecimal digit, in lower case. -/
def hexDigit (n : Nat) : Char := Nat.digitChar n

/-- A character inside a written string. -/
def escapeChar (c : Char) : List Char :=
  if c = '"' then ['\\', '"']
  else if c = '\\' then ['\\', '\\']
  else if c = '\n' then ['\\', 'n']
  else if c = '\r' then ['\\', 'r']
  else if c = '\t' then ['\\', 't']
  else if c.toNat = 8 then ['\\', 'b']
  else if c.toNat = 12 then ['\\', 'f']
  else if c.toNat < 32 then
    ['\\', 'u', '0', '0', hexDigit (c.toNat / 16), hexDigit (c.toNat % 16)]
  else [c]

/-- A string between quotation marks. -/
def quote (s : String) : List Char := '"' :: s.toList.flatMap escapeChar ++ ['"']

end Writer

namespace Value

open Writer

mutual

/-- A value as compact JSON. -/
def toJson : Value → List Char
  | .null => "null".toList
  | .bool true => "true".toList
  | .bool false => "false".toList
  | .number n => n.toText
  | .string s => quote s
  | .array items => '[' :: itemsToJson items ++ [']']
  | .object members => '{' :: membersToJson members ++ ['}']

/-- The items of an array, with commas between them. -/
def itemsToJson : List Value → List Char
  | [] => []
  | [v] => toJson v
  | v :: rest => toJson v ++ ',' :: itemsToJson rest

/-- The members of an object, with commas between them. -/
def membersToJson : List (String × Value) → List Char
  | [] => []
  | [(k, v)] => quote k ++ ':' :: toJson v
  | (k, v) :: rest => quote k ++ ':' :: toJson v ++ ',' :: membersToJson rest

end

/-- A value as compact JSON. -/
def json (v : Value) : String := String.ofList v.toJson

/-- The text that stands for a value in a tree. -/
def display : Value → String
  | .null => ""
  | .string s => s
  | v => v.json

@[simp] theorem display_null : display .null = "" := rfl

@[simp] theorem display_string (s : String) : display (.string s) = s := rfl

end Value

end LiveMarkup
