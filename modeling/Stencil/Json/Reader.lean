import Stencil.Json.Number
import Stencil.Table

namespace Stencil
namespace Json

-- A value read from the front of some characters, and the characters after it.
abbrev Read (α : Type) := List Char → Option (α × List Char)

def isSpace (c : Char) : Bool :=
  c = ' ' || c = '\t' || c = '\n' || c = '\r'

def dropSpace (cs : List Char) : List Char :=
  cs.dropWhile isSpace

def hexDigit? (c : Char) : Option Nat :=
  if '0' ≤ c ∧ c ≤ '9' then some (c.toNat - '0'.toNat)
  else if 'a' ≤ c ∧ c ≤ 'f' then some (c.toNat - 'a'.toNat + 10)
  else if 'A' ≤ c ∧ c ≤ 'F' then some (c.toNat - 'A'.toNat + 10)
  else none

-- Four hexadecimal digits.
def codeUnit? : Read Nat
  | a :: b :: c :: d :: cs => do
    let a ← hexDigit? a
    let b ← hexDigit? b
    let c ← hexDigit? c
    let d ← hexDigit? d
    pure (((a * 16 + b) * 16 + c) * 16 + d, cs)
  | _ => none

def isHighSurrogate (n : Nat) : Bool :=
  0xD800 ≤ n && n < 0xDC00

def isLowSurrogate (n : Nat) : Bool :=
  0xDC00 ≤ n && n < 0xE000

-- The character after `\u`. Two surrogates make one character, and neither stands alone.
def unicodeEscape? : Read Char := fun cs => do
  let (n, cs) ← codeUnit? cs
  if isLowSurrogate n then none
  else if isHighSurrogate n then
    match cs with
    | '\\' :: 'u' :: cs =>
      let (m, cs) ← codeUnit? cs
      if isLowSurrogate m then
        pure (Char.ofNat (0x10000 + (n - 0xD800) * 0x400 + (m - 0xDC00)), cs)
      else none
    | _ => none
  else pure (Char.ofNat n, cs)

-- The character after a backslash.
def escape? : Read Char
  | []      => none
  | c :: cs =>
    match c with
    | '"'  => some ('"', cs)
    | '\\' => some ('\\', cs)
    | '/'  => some ('/', cs)
    | 'b'  => some ('\x08', cs)
    | 'f'  => some ('\x0c', cs)
    | 'n'  => some ('\n', cs)
    | 'r'  => some ('\r', cs)
    | 't'  => some ('\t', cs)
    | 'u'  => unicodeEscape? cs
    | _    => none

-- The rest of a string after its opening quote. `fuel` is at least the number of characters, and
-- `done` holds the characters read so far, last first.
def stringRest? (fuel : Nat) (done : List Char) : Read String :=
  match fuel with
  | 0        => fun _ => none
  | fuel + 1 => fun
    | []      => none
    | c :: cs =>
      if c = '"' then some (String.ofList done.reverse, cs)
      else if c = '\\' then
        match escape? cs with
        | some (c, cs) => stringRest? fuel (c :: done) cs
        | none         => none
      else if c.toNat < 0x20 then none
      else stringRest? fuel (c :: done) cs

def string? : Read String
  | []      => none
  | c :: cs => if c = '"' then stringRest? (cs.length + 1) [] cs else none

-- A number has no needless zero in front, and digits on both sides of its point.
def numberText? : Read NumberText := fun cs => do
  let (negative, cs) := match cs with
    | '-' :: cs => (true, cs)
    | cs        => (false, cs)
  let whole := cs.takeWhile Binary64.isDigit
  let cs := cs.dropWhile Binary64.isDigit
  if whole.isEmpty || (whole.length > 1 && whole.head? = some '0') then none
  let (fraction, cs) ← match cs with
    | '.' :: cs =>
      let ds := cs.takeWhile Binary64.isDigit
      if ds.isEmpty then none else some (some ds, cs.dropWhile Binary64.isDigit)
    | cs => some (none, cs)
  let (exponent, cs) ← match cs with
    | 'e' :: cs | 'E' :: cs =>
      let (negative, cs) := Binary64.readSign cs
      let ds := cs.takeWhile Binary64.isDigit
      if ds.isEmpty then none else some (some (negative, ds), cs.dropWhile Binary64.isDigit)
    | cs => some (none, cs)
  pure (⟨negative, whole, fraction, exponent⟩, cs)

def number? : Read Json := fun cs => do
  let (text, cs) ← numberText? cs
  let n ← text.value?
  pure (.number n, cs)

def literal? (word : String) (value : Json) : Read Json := fun cs =>
  if word.toList.isPrefixOf cs then some (value, cs.drop word.length) else none

-- The items of an array after its opening bracket and the first blank space, up to its end.
def items? (value? : Read Json) (fuel : Nat) (done : List Json) : Read Json :=
  match fuel with
  | 0        => fun _ => none
  | fuel + 1 => fun cs => do
    let (item, cs) ← value? cs
    match dropSpace cs with
    | ',' :: cs => items? value? fuel (item :: done) (dropSpace cs)
    | ']' :: cs => pure (.array (item :: done).reverse, cs)
    | _         => none

def members? (value? : Read Json) (fuel : Nat) (done : List (String × Json)) : Read Json :=
  match fuel with
  | 0        => fun _ => none
  | fuel + 1 => fun cs => do
    let (name, cs) ← string? cs
    match dropSpace cs with
    | ':' :: cs =>
      let (item, cs) ← value? (dropSpace cs)
      let done := (name, item) :: done
      match dropSpace cs with
      | ',' :: cs => members? value? fuel done (dropSpace cs)
      | '}' :: cs => pure (.object (Table.ofList done.reverse), cs)
      | _         => none
    | _ => none

-- A value that nests arrays and objects at most `depth` deep, without blank space around it.
def value? (depth : Nat) : Read Json
  | []      => none
  | c :: cs =>
    match c with
    | '"' => (string? (c :: cs)).map fun (s, cs) => (.string s, cs)
    | 't' => literal? "true" (.bool true) (c :: cs)
    | 'f' => literal? "false" (.bool false) (c :: cs)
    | 'n' => literal? "null" .null (c :: cs)
    | '[' =>
      match depth, dropSpace cs with
      | 0, _             => none
      | _ + 1, ']' :: cs => some (.array [], cs)
      | depth + 1, cs    => items? (value? depth) (cs.length + 1) [] cs
    | '{' =>
      match depth, dropSpace cs with
      | 0, _             => none
      | _ + 1, '}' :: cs => some (.object [], cs)
      | depth + 1, cs    => members? (value? depth) (cs.length + 1) [] cs
    | c => if c = '-' || Binary64.isDigit c then number? (c :: cs) else none

-- Documents from elsewhere may nest this deep.
def maxDepth : Nat :=
  127

-- The document that the whole text spells, if it spells one by RFC 8259. Of two members with one
-- name the later wins.
def read? (depth : Nat) (text : String) : Option Json := do
  let (j, cs) ← value? depth (dropSpace text.toList)
  if (dropSpace cs).isEmpty then some j else none

end Json
end Stencil
