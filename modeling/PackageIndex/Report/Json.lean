/-!
# JSON reports

Reports for programs are written in JSON, one member or element a line, two spaces deeper than what
holds it. Empty lists and objects stay on one line. Only quotes, backslashes and control characters
are escaped.
-/

namespace PackageIndex

/-- A JSON value. -/
inductive Json where
  | null
  | bool (value : Bool)
  | number (value : Nat)
  | text (value : String)
  | list (elements : List Json)
  | object (members : List (String × Json))

namespace Json

/-- A text, or null if there is none. -/
def ofText? (s : Option String) : Json :=
  match s with
  | some s => .text s
  | none => .null

/-- The digit of a hexadecimal number. -/
def hexDigit (n : Nat) : Char :=
  Nat.digitChar (n % 16)

/-- A character as it stands in a quoted text. -/
def escapeChar (c : Char) : List Char :=
  if c = '"' then ['\\', '"']
  else if c = '\\' then ['\\', '\\']
  else if c = '\n' then ['\\', 'n']
  else if c = '\r' then ['\\', 'r']
  else if c = '\t' then ['\\', 't']
  else if c.toNat = 8 then ['\\', 'b']
  else if c.toNat = 12 then ['\\', 'f']
  else if c.toNat < 0x20 then
    ['\\', 'u', '0', '0', hexDigit (c.toNat / 16), hexDigit c.toNat]
  else [c]

/-- A text in quotes. -/
def quote (s : String) : String :=
  "\"" ++ String.ofList (s.toList.flatMap escapeChar) ++ "\""

/-- A new line at the given depth. -/
def newLine (depth : Nat) : String :=
  String.ofList ('\n' :: List.replicate (2 * depth) ' ')

/-- The opening bracket of an object. -/
def openBrace : String := "\x7b"

/-- The closing bracket of an object. -/
def closeBrace : String := "\x7d"

mutual

/-- The text of a value that stands at the given depth. -/
def renderAt (depth : Nat) : Json → String
  | .null => "null"
  | .bool value => if value then "true" else "false"
  | .number value => toString value
  | .text value => quote value
  | .list [] => "[]"
  | .list (x :: xs) =>
    "[" ++ newLine (depth + 1) ++ renderAt (depth + 1) x ++ renderElements (depth + 1) xs ++
      newLine depth ++ "]"
  | .object [] => openBrace ++ closeBrace
  | .object ((key, x) :: members) =>
    openBrace ++ newLine (depth + 1) ++ quote key ++ ": " ++ renderAt (depth + 1) x ++
      renderMembers (depth + 1) members ++ newLine depth ++ closeBrace

/-- The text of the elements of a list after the first. -/
def renderElements (depth : Nat) : List Json → String
  | [] => ""
  | x :: xs => "," ++ newLine depth ++ renderAt depth x ++ renderElements depth xs

/-- The text of the members of an object after the first. -/
def renderMembers (depth : Nat) : List (String × Json) → String
  | [] => ""
  | (key, x) :: members =>
    "," ++ newLine depth ++ quote key ++ ": " ++ renderAt depth x ++ renderMembers depth members

end

/-- The text of a value. -/
def render (value : Json) : String :=
  renderAt 0 value

end Json

end PackageIndex
