import Stencil.Json.Basic
import Stencil.Number.Style

namespace Stencil
namespace Json

-- The spelling of a character in a string. Control characters have a short name or a number.
def escaped (c : Char) : List Char :=
  if c = '"' then ['\\', '"']
  else if c = '\\' then ['\\', '\\']
  else if c = '\x08' then ['\\', 'b']
  else if c = '\x0c' then ['\\', 'f']
  else if c = '\n' then ['\\', 'n']
  else if c = '\r' then ['\\', 'r']
  else if c = '\t' then ['\\', 't']
  else if c.toNat < 0x20 then
    ['\\', 'u', '0', '0', Nat.digitChar (c.toNat / 16), Nat.digitChar (c.toNat % 16)]
  else [c]

def writeString (s : String) : String :=
  String.ofList ('"' :: s.toList.flatMap escaped ++ ['"'])

-- Values without a JSON number are written as null.
def Number.write : Number → String
  | int i  => toString i
  | real x => x.render .json

def newLine (level : Nat) : String :=
  "\n" ++ String.ofList (List.replicate (2 * level) ' ')

mutual

-- Appends a value to a text, one item to a line; its inner lines are indented to one more than
-- `level`.
def append (level : Nat) (out : String) : Json → String
  | null                 => out ++ "null"
  | bool b               => out ++ (if b then "true" else "false")
  | number n             => out ++ n.write
  | string s             => out ++ writeString s
  | array []             => out ++ "[]"
  | array (j :: js)      =>
    appendItems (level + 1) (append (level + 1) (out ++ "[" ++ newLine (level + 1)) j) js
      ++ newLine level ++ "]"
  | object []            => out ++ "\x7b\x7d"
  | object ((k, j) :: ms) =>
    appendMembers (level + 1)
        (append (level + 1) (out ++ "\x7b" ++ newLine (level + 1) ++ writeString k ++ ": ") j) ms
      ++ newLine level ++ "\x7d"

def appendItems (level : Nat) (out : String) : List Json → String
  | []      => out
  | j :: js => appendItems level (append level (out ++ "," ++ newLine level) j) js

def appendMembers (level : Nat) (out : String) : List (String × Json) → String
  | []           => out
  | (k, j) :: ms =>
    appendMembers level (append level (out ++ "," ++ newLine level ++ writeString k ++ ": ") j) ms

end

def write (j : Json) : String :=
  append 0 "" j

def ofNat (n : Nat) : Json :=
  number (.int n)

end Json
end Stencil
