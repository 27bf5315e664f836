import SymbolicRegression.Json.Basic
import SymbolicRegression.Number.Reading

/-!
# Reading JSON

A reader takes characters and gives what it read together with the characters that are left. Each
value takes at least one character, so the length of the text bounds the nesting and the number of
items.
-/

namespace SymbolicRegression

namespace Json

def skipBlank (cs : List Char) : List Char :=
  cs.dropWhile fun c => c == ' ' || c == '\t' || c == '\n' || c == '\r'

def hexDigit? (c : Char) : Option Nat :=
  if c.isDigit then some (c.toNat - '0'.toNat)
  else if 'a' ≤ c && c ≤ 'f' then some (c.toNat - 'a'.toNat + 10)
  else if 'A' ≤ c && c ≤ 'F' then some (c.toNat - 'A'.toNat + 10)
  else none

def hexUnit? : List Char → Option (Nat × List Char)
  | a :: b :: c :: d :: rest => do
    let a ← hexDigit? a
    let b ← hexDigit? b
    let c ← hexDigit? c
    let d ← hexDigit? d
    return (((a * 16 + b) * 16 + c) * 16 + d, rest)
  | _ => none

/-- The character of an escape by number; a pair of surrogates is one character. -/
def escapedByNumber? (cs : List Char) : Option (Char × List Char) := do
  let (high, rest) ← hexUnit? cs
  if 0xD800 ≤ high && high < 0xDC00 then
    match rest with
    | '\\' :: 'u' :: rest =>
      let (low, rest) ← hexUnit? rest
      if 0xDC00 ≤ low && low < 0xE000 then
        return (Char.ofNat (0x10000 + (high - 0xD800) * 0x400 + (low - 0xDC00)), rest)
      else none
    | _ => none
  else if 0xDC00 ≤ high && high < 0xE000 then none
  else return (Char.ofNat high, rest)

/-- The character that a letter after a backslash stands for. -/
def escapedByLetter? (c : Char) : Option Char :=
  if c = 'n' then some '\n'
  else if c = 't' then some '\t'
  else if c = 'r' then some '\r'
  else if c = 'b' then some (Char.ofNat 0x08)
  else if c = 'f' then some (Char.ofNat 0x0C)
  else if c = '"' || c = '\\' || c = '/' then some c
  else none

/-- The characters of a string after its opening quote, and what follows its closing one. -/
def stringBody? : Nat → List Char → List Char → Option (String × List Char)
  | 0, _, _ => none
  | _ + 1, _, [] => none
  | fuel + 1, read, c :: rest =>
    if c = '"' then some (String.ofList read.reverse, rest)
    else if c = '\\' then
      match rest with
      | [] => none
      | 'u' :: rest => do
        let (c, rest) ← escapedByNumber? rest
        stringBody? fuel (c :: read) rest
      | c :: rest => do
        let c ← escapedByLetter? c
        stringBody? fuel (c :: read) rest
    else stringBody? fuel (c :: read) rest

def inNumeral (c : Char) : Bool :=
  c.isDigit || c == '-' || c == '+' || c == '.' || c == 'e' || c == 'E'

/-- A word that is a value of its own. -/
def word? (cs : List Char) : Option (Json × List Char) :=
  let word := String.ofList (cs.takeWhile Char.isAlpha)
  let rest := cs.dropWhile Char.isAlpha
  match word with
  | "null" => some (.null, rest)
  | "true" => some (.bool true, rest)
  | "false" => some (.bool false, rest)
  | _ => none

mutual

def value? : Nat → List Char → Option (Json × List Char)
  | 0, _ => none
  | fuel + 1, cs =>
    match skipBlank cs with
    | [] => none
    | '[' :: rest =>
      match skipBlank rest with
      | ']' :: rest => some (.array [], rest)
      | rest => do
        let (items, rest) ← items? fuel rest
        return (.array items, rest)
    | c :: rest =>
      if c = Char.ofNat 0x7B then
        match skipBlank rest with
        | [] => none
        | d :: after =>
          if d = Char.ofNat 0x7D then some (.object [], after)
          else do
            let (entries, rest) ← entries? fuel (d :: after)
            return (.object entries, rest)
      else if c = '"' then do
        let (s, rest) ← stringBody? (rest.length + 1) [] rest
        return (.string s, rest)
      else if inNumeral c then
        let numeral := String.ofList ((c :: rest).takeWhile inNumeral)
        if (Numeral.read? numeral).isSome then
          some (.number numeral, (c :: rest).dropWhile inNumeral)
        else none
      else word? (c :: rest)

/-- The items of an array, up to and with the closing bracket. -/
def items? : Nat → List Char → Option (List Json × List Char)
  | 0, _ => none
  | fuel + 1, cs => do
    let (j, rest) ← value? fuel cs
    match skipBlank rest with
    | ',' :: rest =>
      let (js, rest) ← items? fuel rest
      return (j :: js, rest)
    | ']' :: rest => return ([j], rest)
    | _ => none

/-- The entries of an object, up to and with the closing brace. -/
def entries? : Nat → List Char → Option (List (String × Json) × List Char)
  | 0, _ => none
  | fuel + 1, cs => do
    match skipBlank cs with
    | '"' :: rest =>
      let (name, rest) ← stringBody? (rest.length + 1) [] rest
      match skipBlank rest with
      | ':' :: rest =>
        let (j, rest) ← value? fuel rest
        match skipBlank rest with
        | ',' :: rest =>
          let (es, rest) ← entries? fuel rest
          return ((name, j) :: es, rest)
        | c :: rest => if c = Char.ofNat 0x7D then return ([(name, j)], rest) else none
        | [] => none
      | _ => none
    | _ => none

end

/-- The document that a text holds, with nothing but white space around it. -/
def read? (text : String) : Option Json := do
  let (j, rest) ← value? (text.length + 1) text.toList
  if (skipBlank rest).isEmpty then return j else none

end Json

end SymbolicRegression
