import Algol68.Json
import Algol68.Value.Text

/- Writing of the data format, in one line or indented. -/

------ Texts

namespace Algol68

namespace Json

def escape (c : Char) : List Char :=
  if c = '"' then ['\\', '"']
  else if c = '\\' then ['\\', '\\']
  else if c = '\n' then ['\\', 'n']
  else if c = '\r' then ['\\', 'r']
  else if c = '\t' then ['\\', 't']
  else if c.toNat = 0x8 then ['\\', 'b']
  else if c.toNat = 0xc then ['\\', 'f']
  else if c.toNat < 0x20 then ['\\', 'u'] ++ (Text.paddedHex 4 c.toNat).toList
  else [c]

def quotedChars : Quoted → List Char
  | .text content => '"' :: content.toList.flatMap escape ++ ['"']
  | .unpaired => "\"\\ud800\"".toList

------ One Line

mutual

/- A value without blanks. -/
def compactChars : Json → List Char
  | .null => "null".toList
  | .bool true => "true".toList
  | .bool false => "false".toList
  | .number spelling => spelling
  | .string content => quotedChars content
  | .array [] => ['[', ']']
  | .array (item :: items) => '[' :: (compactChars item ++ compactItems items)
  | .object [] => ['\x7b', '\x7d']
  | .object ((name, value) :: members) =>
    '\x7b' :: (quotedChars name ++ ':' :: (compactChars value ++ compactMembers members))

/- The items behind the first, and the closing bracket. -/
def compactItems : List Json → List Char
  | [] => [']']
  | item :: items => ',' :: (compactChars item ++ compactItems items)

/- The members behind the first, and the closing brace. -/
def compactMembers : List (Quoted × Json) → List Char
  | [] => ['\x7d']
  | (name, value) :: members =>
    ',' :: (quotedChars name ++ ':' :: (compactChars value ++ compactMembers members))

end

def compact (json : Json) : String := String.ofList json.compactChars

------ Indented

/- A line break, and two blanks for each level. -/
def newLine (depth : Nat) : List Char := '\n' :: List.replicate (2 * depth) ' '

mutual

/- A value whose items have lines of their own. -/
def prettyChars (depth : Nat) : Json → List Char
  | .null => "null".toList
  | .bool true => "true".toList
  | .bool false => "false".toList
  | .number spelling => spelling
  | .string content => quotedChars content
  | .array [] => ['[', ']']
  | .array (item :: items) =>
    '[' :: (newLine (depth + 1) ++ (prettyChars (depth + 1) item ++ prettyItems depth items))
  | .object [] => ['\x7b', '\x7d']
  | .object ((name, value) :: members) =>
    '\x7b' :: (newLine (depth + 1) ++ (quotedChars name ++
      ':' :: ' ' :: (prettyChars (depth + 1) value ++ prettyMembers depth members)))

/- The items behind the first, and the closing bracket. -/
def prettyItems (depth : Nat) : List Json → List Char
  | [] => newLine depth ++ [']']
  | item :: items =>
    ',' :: (newLine (depth + 1) ++ (prettyChars (depth + 1) item ++ prettyItems depth items))

/- The members behind the first, and the closing brace. -/
def prettyMembers (depth : Nat) : List (Quoted × Json) → List Char
  | [] => newLine depth ++ ['\x7d']
  | (name, value) :: members =>
    ',' :: (newLine (depth + 1) ++ (quotedChars name ++
      ':' :: ' ' :: (prettyChars (depth + 1) value ++ prettyMembers depth members)))

end

/- The value with one item or member a line. -/
def pretty (json : Json) : String := String.ofList (json.prettyChars 0)

end Json

end Algol68
